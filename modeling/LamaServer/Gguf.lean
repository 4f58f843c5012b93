import LamaServer.Lib.Except
import LamaServer.Lib.Format
import Mathlib.Data.List.TakeWhile

/-!
# Reading a GGUF file

`gguf_init_from_file_impl` on the bytes of a file: the header, the key-value pairs, the tensor
infos, and the blob with the tensor data. A computation of a size in `size_t` is watched: it stops
with `wrap` where the machine's wraps around. `alloc n` is whether memory for `n` bytes that the
file asks for is granted. What the code copies after it has read it is granted.
-/

namespace LamaServer

/-- How a call ends when it does not return a context. -/
inductive GgufStop
  | nullptr
  | assertion
  | divisionByZero
  | wrap
  | exception
  | outOfBounds
  deriving DecidableEq, Repr

/-- The result of a computation in `size_t`. -/
def sizeT (n : Nat) : Except GgufStop Nat := if n < 2 ^ 64 then .ok n else .error .wrap

def int64Max : Nat := 2 ^ 63 - 1

/-- `GGML_PAD`, where `~(n - 1)` is `2 ^ 64 - n` in a `size_t`. -/
def ggmlPad (x n : Nat) : Except GgufStop Nat := do
  let y ← sizeT (x + n)
  pure ((y - 1) &&& (2 ^ 64 - n))

/-- A byte string up to its first zero byte. -/
def cString (s : List UInt8) : List UInt8 := s.takeWhile (· ≠ 0)

theorem zero_notMem_cString (s : List UInt8) : 0 ∉ cString s :=
  fun h => by simpa using List.mem_takeWhile_imp h

theorem cString_of_notMem {s : List UInt8} (h : 0 ∉ s) : cString s = s := by
  refine List.takeWhile_eq_self_iff.2 fun c hc => ?_
  simpa using fun h0 : c = 0 => h (h0 ▸ hc)

/-! ### Key-value pairs -/

inductive GgufType
  | uint8
  | int8
  | uint16
  | int16
  | uint32
  | int32
  | float32
  | bool
  | string
  | array
  | uint64
  | int64
  | float64
  deriving DecidableEq, Repr

def GgufType.code : GgufType → Nat
  | uint8 => 0
  | int8 => 1
  | uint16 => 2
  | int16 => 3
  | uint32 => 4
  | int32 => 5
  | float32 => 6
  | bool => 7
  | string => 8
  | array => 9
  | uint64 => 10
  | int64 => 11
  | float64 => 12

def GgufType.ofCode : Nat → Option GgufType
  | 0 => some uint8
  | 1 => some int8
  | 2 => some uint16
  | 3 => some int16
  | 4 => some uint32
  | 5 => some int32
  | 6 => some float32
  | 7 => some bool
  | 8 => some string
  | 9 => some array
  | 10 => some uint64
  | 11 => some int64
  | 12 => some float64
  | _ => none

theorem GgufType.ofCode_code (t : GgufType) : ofCode t.code = some t := by
  rcases t <;> rfl

theorem GgufType.ofCode_eq_some {n : Nat} {t : GgufType} : ofCode n = some t ↔ n = t.code := by
  constructor
  · intro h
    unfold ofCode at h
    split at h <;> simp at h <;> subst h <;> rfl
  · rintro rfl
    exact ofCode_code t

theorem GgufType.code_lt (t : GgufType) : t.code < 13 := by
  rcases t <;> decide

def ggufTypeSize : GgufType → Nat
  | .uint8 | .int8 | .bool => 1
  | .uint16 | .int16 => 2
  | .uint32 | .int32 | .float32 => 4
  | .uint64 | .int64 | .float64 => 8
  | .string | .array => 0

/-- What an element of a value is: a string, or the bytes of a number. -/
def IsElem (t : GgufType) (e : List UInt8) : Prop :=
  (t ≠ .string → e.length = ggufTypeSize t) ∧ (t = .bool → e = [0] ∨ e = [1])

/-- `elems` are the strings of `data_string`, or the elements that `data` holds one after
another. -/
@[ext] structure GgufKv where
  key : List UInt8
  isArray : Bool
  type : GgufType
  elems : List (List UInt8)
  key_ne : key ≠ []
  type_ne : type ≠ .array
  isElem : ∀ e ∈ elems, IsElem type e
  length_eq : isArray = false → elems.length = 1
  deriving DecidableEq

namespace GgufKv

def data (kv : GgufKv) : List UInt8 := kv.elems.flatten

/-- `get_ne`, whose assertions hold of every pair. -/
def ne (kv : GgufKv) : Nat := kv.elems.length

end GgufKv

/-! ### The reader -/

def readBytes (n : Nat) (bs : List UInt8) : Except GgufStop (List UInt8 × List UInt8) :=
  .ofOption .nullptr (Format.takeBytes n bs)

def readUnsigned (w : Nat) (bs : List UInt8) : Except GgufStop (Nat × List UInt8) :=
  .ofOption .nullptr ((Format.unsigned w).read bs)

def readInt64 (bs : List UInt8) : Except GgufStop (Int × List UInt8) :=
  .ofOption .nullptr ((Format.signed 8).read bs)

section Reader

variable (alloc : Nat → Bool)

/-- `gguf_reader::read` for a string: the resize throws when the memory is not granted. -/
def readString (bs : List UInt8) : Except GgufStop (List UInt8 × List UInt8) := do
  let (size, bs) ← readUnsigned 8 bs
  if alloc size then readBytes size bs else .error .exception

/-- The handlers of `length_error` and `bad_alloc`. -/
def caught {α : Type} : Except GgufStop α → Except GgufStop α
  | .error .exception => .error .nullptr
  | x => x

/-- A byte read as a `bool`. -/
def boolByte (e : List UInt8) : List UInt8 := if e = [0] then [0] else [1]

theorem isElem_boolByte (e : List UInt8) : IsElem .bool (boolByte e) := by
  unfold boolByte
  split_ifs <;> simp [IsElem, ggufTypeSize]

def readElem (t : GgufType) (bs : List UInt8) :
    Except GgufStop ({e : List UInt8 // IsElem t e} × List UInt8) :=
  if ht : t = .string then do
    let (s, bs) ← readString alloc bs
    pure (⟨s, by simp [IsElem, ht]⟩, bs)
  else if hb : t = .bool then do
    let (b, bs) ← .ofOption .nullptr ((Format.block 1).read bs)
    pure (⟨boolByte b.1, hb ▸ isElem_boolByte b.1⟩, bs)
  else do
    let (b, bs) ← .ofOption .nullptr ((Format.block (ggufTypeSize t)).read bs)
    pure (⟨b.1, fun _ => b.2, fun h => absurd h hb⟩, bs)

def readElems (t : GgufType) : Nat → List UInt8 →
    Except GgufStop (List {e : List UInt8 // IsElem t e} × List UInt8)
  | 0, bs => .ok ([], bs)
  | n + 1, bs => do
    let (e, bs) ← readElem alloc t bs
    let (es, bs) ← readElems t n bs
    pure (e :: es, bs)

/-- The bytes of a `std::vector` of `n` elements. -/
def vectorBytes (t : GgufType) (n : Nat) : Nat :=
  match t with
  | .string => 32 * n
  | .bool => (n + 63) / 64 * 8
  | t => ggufTypeSize t * n

/-- `gguf_reader::read` for a vector. -/
def readVector (t : GgufType) (n : Nat) (bs : List UInt8) :
    Except GgufStop (List {e : List UInt8 // IsElem t e} × List UInt8) :=
  if alloc (vectorBytes t n) then readElems alloc t n bs else .error .exception

/-- The constructors of `gguf_kv` assert that the key is not empty. -/
def emplaceKv (key : List UInt8) (isArray : Bool) {t : GgufType} (ht : t ≠ .array)
    (es : List {e : List UInt8 // IsElem t e}) (hes : isArray = false → es.length = 1) :
    Except GgufStop GgufKv :=
  if hkey : key = [] then .error .assertion
  else .ok
    { key, isArray, type := t, elems := es.map (·.1)
      key_ne := hkey
      type_ne := ht
      isElem := by
        intro e he
        obtain ⟨e, -, rfl⟩ := List.mem_map.1 he
        exact e.2
      length_eq := by simpa using hes }

/-- `gguf_read_emplace_helper`: an array is read with the exceptions caught, a single value
without. -/
def ggufReadEmplaceHelper (key : List UInt8) (isArray : Bool) (t : GgufType) (ht : t ≠ .array)
    (n : Nat) (bs : List UInt8) : Except GgufStop (GgufKv × List UInt8) :=
  if isArray then do
    let (es, bs) ← caught (readVector alloc t n bs)
    let kv ← emplaceKv key true ht es (by simp)
    pure (kv, bs)
  else do
    let (e, bs) ← readElem alloc t bs
    let kv ← emplaceKv key false ht [e] (by simp)
    pure (kv, bs)

/-- The type of a value, and the number of its elements when it is an array. -/
def readType (bs : List UInt8) : Except GgufStop (Bool × Nat × Nat × List UInt8) := do
  let (type, bs) ← readUnsigned 4 bs
  if type = GgufType.array.code then do
    let (type, bs) ← readUnsigned 4 bs
    let (n, bs) ← readUnsigned 8 bs
    pure (true, type, n, bs)
  else pure (false, type, 1, bs)

theorem lawfulBEq_bytes : LawfulBEq (List UInt8) := inferInstance

attribute [local instance] lawfulBEq_bytes

/-- One turn of the loop over the key-value pairs. -/
def readKv (s : List GgufKv × List UInt8) : Except GgufStop (List GgufKv × List UInt8) := do
  let (key, bs) ← caught (readString alloc s.2)
  if key ∈ s.1.map (·.key) then .error .nullptr else do
    let (isArray, type, n, bs) ← readType bs
    match GgufType.ofCode type with
    | none => .error .nullptr
    | some t =>
      if ht : t = .array then .error .nullptr else do
        let (kv, bs) ← ggufReadEmplaceHelper alloc key isArray t ht n bs
        pure (s.1 ++ [kv], bs)

def ggufKeyGeneralAlignment : List UInt8 :=
  "general.alignment".toList.map fun c => UInt8.ofNat c.toNat

def ggufFindKey (kvs : List GgufKv) (key : List UInt8) : Int :=
  match kvs.findIdx? (cString ·.key = key) with
  | some i => i
  | none => -1

def ggufGetValU32 (kvs : List GgufKv) (i : Int) : Except GgufStop Nat :=
  if 0 ≤ i then
    match kvs[i.toNat]? with
    | some kv =>
      if kv.ne = 1 ∧ kv.type = .uint32 then .ok (Format.ofLE kv.data) else .error .assertion
    | none => .error .assertion
  else .error .assertion

/-- A 64-bit index as an `int`. -/
def toInt (z : Int) : Int := Format.toSigned 4 (Format.ofSigned 4 z)

def ggufDefaultAlignment : Nat := 32

/-- `alignment_idx`, which is an `int`. -/
def alignmentIdx (kvs : List GgufKv) : Int := toInt (ggufFindKey kvs ggufKeyGeneralAlignment)

def keyAlignment (kvs : List GgufKv) : Except GgufStop Nat :=
  if alignmentIdx kvs = -1 then .ok ggufDefaultAlignment else ggufGetValU32 kvs (alignmentIdx kvs)

/-- `ctx->alignment`, checked to be a power of two. -/
def readAlignment (kvs : List GgufKv) : Except GgufStop Nat := do
  let a ← keyAlignment kvs
  if a = 0 ∨ a &&& (a - 1) ≠ 0 then .error .nullptr else pure a

/-! ### Tensors -/

abbrev GgmlType := Fin 39

instance neZero_ggmlTypes : NeZero 39 := ⟨by decide⟩

/-- The elements of a block and the bytes of a block, for each `ggml_type`. -/
def ggmlTypeTraits : List (Nat × Nat) :=
  [(1, 4), (1, 2), (32, 18), (32, 20), (0, 0), (0, 0), (32, 22), (32, 24), (32, 34), (32, 36),
   (256, 84), (256, 110), (256, 144), (256, 176), (256, 210), (256, 292), (256, 66), (256, 74),
   (256, 98), (256, 50), (32, 18), (256, 110), (256, 82), (256, 136), (1, 1), (1, 2), (1, 4),
   (1, 8), (1, 8), (256, 56), (1, 2), (0, 0), (0, 0), (0, 0), (256, 54), (256, 66), (0, 0),
   (0, 0), (0, 0)]

def ggmlBlckSize (type : GgmlType) : Nat := (ggmlTypeTraits.getD type (0, 0)).1

def ggmlTypeSize (type : GgmlType) : Nat := (ggmlTypeTraits.getD type (0, 0)).2

/-- `data` is what can be read through the tensor, `none` when it has no data. -/
structure GgmlTensor where
  name : List UInt8
  type : GgmlType
  ne0 : Nat
  ne1 : Nat
  ne2 : Nat
  ne3 : Nat
  nb0 : Nat
  nb1 : Nat
  nb2 : Nat
  nb3 : Nat
  data : Option (List UInt8)
  deriving DecidableEq

namespace GgmlTensor

/-- The strides of a contiguous tensor, computed in the same way at three places. -/
def setStrides (t : GgmlTensor) : Except GgufStop GgmlTensor := do
  let nb0 := ggmlTypeSize t.type
  let nb1 ← sizeT (nb0 * (t.ne0 / ggmlBlckSize t.type))
  let nb2 ← sizeT (nb1 * t.ne1)
  let nb3 ← sizeT (nb2 * t.ne2)
  pure { t with nb0, nb1, nb2, nb3 }

end GgmlTensor

/-- A sum in `size_t`. -/
def addSize (x y : Nat) : Except GgufStop Nat := do
  let y ← sizeT y
  sizeT (x + y)

/-- What `ggml_nbytes` starts with: the bytes of the first row. -/
def rowNbytes (t : GgmlTensor) : Except GgufStop Nat :=
  if ggmlBlckSize t.type = 1 then addSize (ggmlTypeSize t.type) ((t.ne0 - 1) * t.nb0)
  else do
    let nbytes ← sizeT (t.ne0 * t.nb0)
    pure (nbytes / ggmlBlckSize t.type)

def ggmlNbytes (t : GgmlTensor) : Except GgufStop Nat :=
  if t.ne0 = 0 ∨ t.ne1 = 0 ∨ t.ne2 = 0 ∨ t.ne3 = 0 then .ok 0
  else do
    let nbytes ← rowNbytes t
    let nbytes ← addSize nbytes ((t.ne1 - 1) * t.nb1)
    let nbytes ← addSize nbytes ((t.ne2 - 1) * t.nb2)
    addSize nbytes ((t.ne3 - 1) * t.nb3)

structure GgufTensorInfo where
  t : GgmlTensor
  offset : Nat
  deriving DecidableEq

def ggmlMaxName : Nat := 64

def readTensorName (names : List (List UInt8)) (bs : List UInt8) :
    Except GgufStop (List UInt8 × List UInt8) := do
  let (name, bs) ← caught (readString alloc bs)
  if ggmlMaxName ≤ name.length then .error .nullptr
  else if cString name ∈ names then .error .nullptr
  else pure (cString name, bs)

/-- The dimensions that the file has, each checked to be non-negative. -/
def readDims : Nat → List UInt8 → Except GgufStop (List Nat × List UInt8)
  | 0, bs => .ok ([], bs)
  | n + 1, bs => do
    let (ne, bs) ← readInt64 bs
    if ne < 0 then .error .nullptr else do
      let (nes, bs) ← readDims n bs
      pure (ne.toNat :: nes, bs)

/-- One of the divisions that check the number of elements. -/
def checkElements (ne total : Nat) : Except GgufStop Unit :=
  if ne = 0 then .error .divisionByZero
  else if int64Max / ne ≤ total then .error .nullptr
  else .ok ()

def ggmlMaxDims : Nat := 4

def readTensorShape (bs : List UInt8) : Except GgufStop (List Nat × List UInt8) := do
  let (nDims, bs) ← readUnsigned 4 bs
  if ggmlMaxDims < nDims then .error .nullptr else do
    let (ne, bs) ← readDims nDims bs
    checkElements (ne.getD 1 1) (ne.getD 0 1)
    checkElements (ne.getD 2 1) (ne.getD 0 1 * ne.getD 1 1)
    checkElements (ne.getD 3 1) (ne.getD 0 1 * ne.getD 1 1 * ne.getD 2 1)
    pure (ne, bs)

def readTensorType (ne0 : Nat) (bs : List UInt8) : Except GgufStop (GgmlType × List UInt8) := do
  let (type, bs) ← readUnsigned 4 bs
  if h : type < 39 then
    if ggmlBlckSize ⟨type, h⟩ = 0 ∨ ne0 % ggmlBlckSize ⟨type, h⟩ ≠ 0 then .error .nullptr
    else pure (⟨type, h⟩, bs)
  else .error .nullptr

/-- One turn of the loop over the tensor infos. -/
def readTensorInfo (s : List GgufTensorInfo × List UInt8) :
    Except GgufStop (List GgufTensorInfo × List UInt8) := do
  let (name, bs) ← readTensorName alloc (s.1.map (·.t.name)) s.2
  let (ne, bs) ← readTensorShape bs
  let (type, bs) ← readTensorType (ne.getD 0 1) bs
  let t ← GgmlTensor.setStrides
    { name, type, ne0 := ne.getD 0 1, ne1 := ne.getD 1 1, ne2 := ne.getD 2 1, ne3 := ne.getD 3 1
      nb0 := 0, nb1 := 0, nb2 := 0, nb3 := 0, data := none }
  let (offset, bs) ← readUnsigned 8 bs
  pure (s.1 ++ [{ t, offset }], bs)

/-! ### The data section -/

/-- The data section starts at the next aligned position, to which `fseek` takes a `long`. -/
def dataOffset (pos alignment : Nat) : Except GgufStop Nat := do
  let offset ← ggmlPad pos alignment
  if offset < 2 ^ 63 then pure offset else .error .nullptr

def addTensorSize (alignment size : Nat) (ti : GgufTensorInfo) : Except GgufStop Nat :=
  if ti.offset ≠ size then .error .nullptr
  else do
    let nbytes ← ggmlNbytes ti.t
    let padded ← ggmlPad nbytes alignment
    sizeT (size + padded)

def dataSize (alignment : Nat) (info : List GgufTensorInfo) : Except GgufStop Nat :=
  info.foldlM (addTensorSize alignment) 0

def ggmlMemAlign : Nat := 16

def ggmlObjectSize : Nat := 32

def ggmlTensorSize : Nat := 336

def ggmlTensorOverhead : Nat := ggmlObjectSize + ggmlTensorSize

/-- `ggml_init`: the size of the memory pool. -/
def ggmlInit (memSize : Nat) : Except GgufStop Nat := do
  let memSize ← ggmlPad (if memSize = 0 then ggmlMemAlign else memSize) ggmlMemAlign
  if alloc memSize then pure memSize else .error .assertion

/-- `ggml_new_object` in a pool of `memSize` bytes used up to `curEnd`: where the object ends. -/
def ggmlNewObject (memSize curEnd size : Nat) : Except GgufStop Nat := do
  let sizeNeeded ← ggmlPad size ggmlMemAlign
  let objEnd ← sizeT (curEnd + sizeNeeded)
  let objEnd ← sizeT (objEnd + ggmlObjectSize)
  if memSize < objEnd then .error .assertion else pure objEnd

/-- `ggml_new_tensor` for a tensor of the type and dimensions of `t`. -/
def ggmlNewTensor (memSize : Nat) (noAlloc : Bool) (curEnd : Nat) (t : GgmlTensor) :
    Except GgufStop Nat := do
  let rowSize ← sizeT (ggmlTypeSize t.type * t.ne0)
  let dataSize ← sizeT (rowSize / ggmlBlckSize t.type * t.ne1)
  let dataSize ← sizeT (dataSize * t.ne2)
  let dataSize ← sizeT (dataSize * t.ne3)
  let size ← sizeT (ggmlTensorSize + if noAlloc then 0 else dataSize)
  let objEnd ← ggmlNewObject memSize curEnd size
  let _ ← t.setStrides
  pure objEnd

structure GgufInitParams where
  noAlloc : Bool
  /-- Whether a `ggml_context` is asked for. -/
  ctx : Bool

/-- `ggml_new_tensor_1d` for the blob. -/
def blobTensor (size : Nat) : GgmlTensor :=
  { name := [], type := 24, ne0 := size, ne1 := 1, ne2 := 1, ne3 := 1
    nb0 := 0, nb1 := 0, nb2 := 0, nb3 := 0, data := none }

/-- The blob with the tensor data, read into the pool from the data section, and the end of what
is used of the pool. -/
def loadBlob (memSize size : Nat) (bs : List UInt8) : Except GgufStop (List UInt8 × Nat) := do
  let curEnd ← ggmlNewTensor memSize false 0 (blobTensor size)
  let (blob, _) ← readBytes size bs
  pure (blob, curEnd)

/-- The part of the call that creates the tensors, in a pool of the exact size. -/
def loadTensors (params : GgufInitParams) (info : List GgufTensorInfo) (size : Nat)
    (bs : List UInt8) : Except GgufStop (Option (List UInt8)) := do
  if params.noAlloc then do
    let memSize ← sizeT (info.length * ggmlTensorOverhead)
    let memSize ← ggmlInit alloc memSize
    let _ ← info.foldlM (fun curEnd ti => ggmlNewTensor memSize true curEnd ti.t) 0
    pure none
  else do
    let memSize ← sizeT ((info.length + 1) * ggmlTensorOverhead)
    let memSize ← sizeT (memSize + size)
    let memSize ← ggmlInit alloc memSize
    let (blob, curEnd) ← loadBlob memSize size bs
    let _ ← info.foldlM (fun curEnd ti => ggmlNewTensor memSize true curEnd ti.t) curEnd
    pure (some blob)

def loadData (params : GgufInitParams) (info : List GgufTensorInfo) (size : Nat)
    (bs : List UInt8) : Except GgufStop (Option (List UInt8)) :=
  if params.ctx then loadTensors alloc params info size bs else .ok none

/-! ### The whole file -/

structure GgufContext where
  version : Nat
  kv : List GgufKv
  info : List GgufTensorInfo
  alignment : Nat
  offset : Nat
  size : Nat
  data : Option (List UInt8)
  deriving DecidableEq

def ggufMagic : List UInt8 := "GGUF".toList.map fun c => UInt8.ofNat c.toNat

def ggufVersion : Nat := 3

/-- The sizes of a `gguf_kv` and of a `gguf_tensor_info`, by which the counts are bounded. -/
def ggufKvSize : Nat := 88

def ggufTensorInfoSize : Nat := 344

def readCount (elemSize : Nat) (bs : List UInt8) : Except GgufStop (Nat × List UInt8) := do
  let (n, bs) ← readInt64 bs
  if n < 0 ∨ ((2 ^ 64 - 1) / elemSize : Nat) < n then .error .nullptr else pure (n.toNat, bs)

/-- The magic, the version and the two counts. -/
def readHeader (bs : List UInt8) : Except GgufStop (Nat × Nat × Nat × List UInt8) := do
  let (magic, bs) ← readBytes 4 bs
  if magic ≠ ggufMagic then .error .nullptr else do
    let (version, bs) ← readUnsigned 4 bs
    if version = 1 ∨ ggufVersion < version then .error .nullptr else do
      let (nTensors, bs) ← readCount ggufTensorInfoSize bs
      let (nKv, bs) ← readCount ggufKvSize bs
      pure (version, nTensors, nKv, bs)

/-- A file, in which `ftell` can tell every position. -/
abbrev GgufFile := { bs : List UInt8 // bs.length < 2 ^ 63 }

def ggmlAssert (p : Prop) [Decidable p] : Except GgufStop Unit :=
  if p then .ok () else .error .assertion

/-- The call up to the alignment: the version, the number of tensors, the pairs, and what follows
them. -/
def readKvSection (bs : List UInt8) :
    Except GgufStop (Nat × Nat × List GgufKv × Nat × List UInt8) := do
  let (version, nTensors, nKv, bs) ← readHeader bs
  let (kv, bs) ← Except.iterate (readKv alloc) nKv ([], bs)
  ggmlAssert (kv.length = nKv)
  let alignment ← readAlignment kv
  pure (version, nTensors, kv, alignment, bs)

/-- The tensor infos, where the data section of a file of `fileSize` bytes starts, and its size. -/
def readInfoSection (fileSize nTensors alignment : Nat) (bs : List UInt8) :
    Except GgufStop (List GgufTensorInfo × Nat × Nat) := do
  let (info, bs) ← Except.iterate (readTensorInfo alloc) nTensors ([], bs)
  ggmlAssert (info.length = nTensors)
  let offset ← dataOffset (fileSize - bs.length) alignment
  let size ← dataSize alignment info
  pure (info, offset, size)

def ggufInitFromFileImpl (params : GgufInitParams) (file : GgufFile) :
    Except GgufStop GgufContext := do
  let (version, nTensors, kv, alignment, bs) ← readKvSection alloc file.1
  let (info, offset, size) ← readInfoSection alloc file.1.length nTensors alignment bs
  let data ← loadData alloc params info size (file.1.drop offset)
  pure { version, kv, info, alignment, offset, size, data }

end Reader

end LamaServer
