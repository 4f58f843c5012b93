import LamaServer.Gguf

/-!
# Making and writing a GGUF context

The functions that change a `gguf_context`, and `gguf_write_to_buf`. A call that aborts leaves no
context: it stops with the assertion that failed. The sizes are watched as in the reader.
-/

namespace LamaServer

open Format (toLE)

/-- What a `const char *` points to. -/
abbrev CString := { s : List UInt8 // 0 ∉ s }

def toCString (s : List UInt8) : CString := ⟨cString s, zero_notMem_cString s⟩

/-! ### The keys -/

/-- The value of a key. -/
structure GgufVal where
  isArray : Bool
  type : GgufType
  elems : List {e : List UInt8 // IsElem type e}
  type_ne : type ≠ .array
  length_eq : isArray = false → elems.length = 1

def ggufInitEmpty : GgufContext :=
  { version := ggufVersion, kv := [], info := [], alignment := ggufDefaultAlignment
    offset := 0, size := 0, data := none }

def ggufRemoveKey (kvs : List GgufKv) (key : CString) : List GgufKv :=
  match kvs.findIdx? (cString ·.key = key.1) with
  | some i => kvs.eraseIdx i
  | none => kvs

/-- `gguf_check_reserved_keys`: the alignment is one `u32`, and a power of two. -/
def ggufCheckReservedKeys (key : CString) (v : GgufVal) : Except GgufStop Unit :=
  if key.1 = ggufKeyGeneralAlignment then
    match v with
    | { isArray := false, type := .uint32, elems := [e], .. } =>
      ggmlAssert (0 < Format.ofLE e.1 ∧ Format.ofLE e.1 &&& (Format.ofLE e.1 - 1) = 0)
    | _ => .error .assertion
  else .ok ()

/-- What all the setters do: check the key, remove it, and add it at the end. -/
def ggufSet (ctx : GgufContext) (key : CString) (v : GgufVal) : Except GgufStop GgufContext := do
  ggufCheckReservedKeys key v
  let kv ← emplaceKv key.1 v.isArray v.type_ne v.elems v.length_eq
  pure { ctx with kv := ggufRemoveKey ctx.kv key ++ [kv] }

/-- A single number, given by its bits. -/
def numVal (t : GgufType) (h : t ≠ .array ∧ t ≠ .string ∧ t ≠ .bool) (bits : Nat) : GgufVal where
  isArray := false
  type := t
  elems := [⟨toLE (ggufTypeSize t) bits, by simp [IsElem, h]⟩]
  type_ne := h.1
  length_eq _ := rfl

section Setters

variable (ctx : GgufContext) (key : CString)

def ggufSetValU8 (val : UInt8) := ggufSet ctx key (numVal .uint8 (by decide) val.toNat)

def ggufSetValI8 (val : Int8) := ggufSet ctx key (numVal .int8 (by decide) val.toUInt8.toNat)

def ggufSetValU16 (val : UInt16) := ggufSet ctx key (numVal .uint16 (by decide) val.toNat)

def ggufSetValI16 (val : Int16) := ggufSet ctx key (numVal .int16 (by decide) val.toUInt16.toNat)

def ggufSetValU32 (val : UInt32) := ggufSet ctx key (numVal .uint32 (by decide) val.toNat)

def ggufSetValI32 (val : Int32) := ggufSet ctx key (numVal .int32 (by decide) val.toUInt32.toNat)

def ggufSetValF32 (bits : UInt32) := ggufSet ctx key (numVal .float32 (by decide) bits.toNat)

def ggufSetValU64 (val : UInt64) := ggufSet ctx key (numVal .uint64 (by decide) val.toNat)

def ggufSetValI64 (val : Int64) := ggufSet ctx key (numVal .int64 (by decide) val.toUInt64.toNat)

def ggufSetValF64 (bits : UInt64) := ggufSet ctx key (numVal .float64 (by decide) bits.toNat)

def ggufSetValBool (val : Bool) := ggufSet ctx key
  { isArray := false, type := .bool
    elems := [⟨if val then [1] else [0], by cases val <;> simp [IsElem, ggufTypeSize]⟩]
    type_ne := by decide
    length_eq := fun _ => rfl }

def ggufSetValStr (val : CString) := ggufSet ctx key
  { isArray := false, type := .string, elems := [⟨val.1, by simp [IsElem]⟩]
    type_ne := by decide
    length_eq := fun _ => rfl }

/-- The bytes of the array are its elements one after another. -/
theorem length_eq_one_of_isArray (type : GgufType) (data : List {e : List UInt8 // IsElem type e}) :
    true = false → data.length = 1 := nofun

def ggufSetArrData (type : GgufType) (h : type ≠ .array ∧ type ≠ .string)
    (data : List {e : List UInt8 // IsElem type e}) := ggufSet ctx key
  { isArray := true, type, elems := data
    type_ne := h.1
    length_eq := length_eq_one_of_isArray type data }

def ggufSetArrStr (data : List CString) := ggufSet ctx key
  { isArray := true, type := .string, elems := data.map fun s => ⟨s.1, by simp [IsElem]⟩
    type_ne := by decide
    length_eq := by simp }

end Setters

/-- An element that is passed on by `gguf_set_kv`: a string as a `const char *`. -/
def passElem (t : GgufType) (e : List UInt8) : List UInt8 :=
  if t = .string then cString e else e

/-- The value of a pair of another context, passed to the setter of its type. -/
def GgufKv.passVal (kv : GgufKv) : GgufVal where
  isArray := kv.isArray
  type := kv.type
  elems := kv.elems.attach.map fun e => ⟨passElem kv.type e.1, by
    have he := kv.isElem e.1 e.2
    unfold passElem
    split_ifs with ht
    · simp [IsElem, ht]
    · exact he⟩
  type_ne := kv.type_ne
  length_eq h := by simpa using kv.length_eq h

/-- `gguf_set_kv` from a context with the pairs `src`. -/
def ggufSetKv (ctx : GgufContext) (src : List GgufKv) : Except GgufStop GgufContext :=
  src.foldlM (fun ctx kv => ggufSet ctx (toCString kv.key) kv.passVal) ctx

/-! ### The tensors -/

/-- A tensor as `ggml` makes it, with its data in the memory of a process. -/
structure GgmlTensor.Proper (t : GgmlTensor) : Prop where
  name_lt : t.name.length < ggmlMaxName
  name_ne : 0 ∉ t.name
  ne0_lt : t.ne0 < 2 ^ 63
  ne1_lt : t.ne1 < 2 ^ 63
  ne2_lt : t.ne2 < 2 ^ 63
  ne3_lt : t.ne3 < 2 ^ 63
  blck_ne : ggmlBlckSize t.type ≠ 0
  blck_dvd : ggmlBlckSize t.type ∣ t.ne0
  data_lt : ∀ d ∈ t.data, d.length < 2 ^ 56

/-- Where the tensor after `ti` starts. -/
def nextOffset (alignment : Nat) (ti : GgufTensorInfo) : Except GgufStop Nat := do
  let nbytes ← ggmlNbytes ti.t
  let padded ← ggmlPad nbytes alignment
  sizeT (ti.offset + padded)

attribute [local instance] lawfulBEq_bytes

def ggufAddTensor (ctx : GgufContext) (t : GgmlTensor) : Except GgufStop GgufContext := do
  ggmlAssert (t.name ∉ ctx.info.map (·.t.name))
  let offset ← match ctx.info.getLast? with
    | none => pure 0
    | some ti => nextOffset ctx.alignment ti
  pure { ctx with info := ctx.info ++ [{ t, offset }] }

/-- The offsets of the tensors after `ti`, computed again. -/
def updateOffsets (alignment : Nat) (ti : GgufTensorInfo) :
    List GgufTensorInfo → Except GgufStop (List GgufTensorInfo)
  | [] => .ok []
  | tj :: rest => do
    let offset ← nextOffset alignment ti
    let rest ← updateOffsets alignment { tj with offset } rest
    pure ({ tj with offset } :: rest)

def setType (t : GgmlTensor) (type : GgmlType) : Except GgufStop GgmlTensor :=
  if ggmlBlckSize type = 0 then .error .divisionByZero
  else if t.ne0 % ggmlBlckSize type ≠ 0 then .error .assertion
  else { t with type }.setStrides

/-- `gguf_set_tensor_type` on the infos from the named one on, and those before it. -/
def setTensorType (alignment : Nat) (name : CString) (type : GgmlType) :
    List GgufTensorInfo → Except GgufStop (List GgufTensorInfo)
  | [] => .error .assertion
  | ti :: rest =>
    if ti.t.name = name.1 then do
      let t ← setType ti.t type
      let rest ← updateOffsets alignment { ti with t } rest
      pure ({ ti with t } :: rest)
    else do
      let rest ← setTensorType alignment name type rest
      pure (ti :: rest)

def ggufSetTensorType (ctx : GgufContext) (name : CString) (type : GgmlType) :
    Except GgufStop GgufContext := do
  let info ← setTensorType ctx.alignment name type ctx.info
  pure { ctx with info }

/-- A call on a context. `set` is any of the setters of a value. -/
inductive GgufOp
  | set (key : CString) (v : GgufVal)
  | setKv (src : List GgufKv)
  | removeKey (key : CString)
  | addTensor (t : {t : GgmlTensor // t.Proper})
  | setTensorType (name : CString) (type : GgmlType)

def GgufContext.step (ctx : GgufContext) : GgufOp → Except GgufStop GgufContext
  | .set key v => ggufSet ctx key v
  | .setKv src => ggufSetKv ctx src
  | .removeKey key => pure { ctx with kv := ggufRemoveKey ctx.kv key }
  | .addTensor t => ggufAddTensor ctx t.1
  | .setTensorType name type => ggufSetTensorType ctx name type

/-! ### The writer -/

/-- `gguf_writer::write` for a string. -/
def writeString (s : List UInt8) : List UInt8 := toLE 8 s.length ++ s

/-- `gguf_writer::write` for a pair, which has a type that can be written. -/
def writeKv (kv : GgufKv) : List UInt8 :=
  writeString kv.key ++
    ((if kv.isArray then toLE 4 GgufType.array.code ++ (toLE 4 kv.type.code ++ toLE 8 kv.ne)
      else toLE 4 kv.type.code) ++
    match kv.type with
    | .bool => kv.elems.flatMap boolByte
    | .string => kv.elems.flatMap writeString
    | _ => kv.data)

def ggmlNDims (t : GgmlTensor) : Nat :=
  if 1 < t.ne3 then 4 else if 1 < t.ne2 then 3 else if 1 < t.ne1 then 2 else 1

def writeTensorMeta (info : GgufTensorInfo) : List UInt8 :=
  writeString (cString info.t.name) ++
    (toLE 4 (ggmlNDims info.t) ++
      ([info.t.ne0, info.t.ne1, info.t.ne2, info.t.ne3].take (ggmlNDims info.t)).flatMap (toLE 8) ++
    (toLE 4 info.t.type ++ toLE 8 info.offset))

/-- The zeros after which the size is a multiple of the alignment. -/
def padding (size alignment : Nat) : List UInt8 :=
  List.replicate ((alignment - size % alignment) % alignment) 0

/-- One turn of the loop of `ggml_is_contiguous`: the stride that comes next, if the tensor is
contiguous so far. -/
def contiguousDim (ne nb nextNb : Nat) : Except GgufStop (Option Nat) :=
  if ne = 1 then .ok (some nextNb)
  else if nb ≠ nextNb then .ok none
  else some <$> sizeT (nextNb * ne)

def ggmlIsContiguous (t : GgmlTensor) : Except GgufStop Bool := do
  if t.ne0 ≠ ggmlBlckSize t.type ∧ t.nb0 ≠ ggmlTypeSize t.type then pure false
  else do
    let nextNb ← sizeT (ggmlTypeSize t.type * (t.ne0 / ggmlBlckSize t.type))
    match ← contiguousDim t.ne1 t.nb1 nextNb with
    | none => pure false
    | some nextNb =>
      match ← contiguousDim t.ne2 t.nb2 nextNb with
      | none => pure false
      | some nextNb =>
        match ← contiguousDim t.ne3 t.nb3 nextNb with
        | none => pure false
        | some _ => pure true

/-- `write_tensor_data` to a buffer of `size` bytes, whose data section starts at `offsetData`. -/
def writeTensorData (alignment offsetData size : Nat) (info : GgufTensorInfo) :
    Except GgufStop (List UInt8) := do
  ggmlAssert (size - offsetData = info.offset)
  let contiguous ← ggmlIsContiguous info.t
  ggmlAssert (contiguous = true)
  let nbytes ← ggmlNbytes info.t
  match info.t.data with
  | none => .error .assertion
  | some data =>
    if data.length < nbytes then .error .outOfBounds
    else pure (data.take nbytes ++ padding (size + nbytes) alignment)

def writeDataSection (alignment offsetData : Nat) :
    Nat → List GgufTensorInfo → Except GgufStop (List UInt8)
  | _, [] => .ok []
  | size, info :: rest => do
    let bytes ← writeTensorData alignment offsetData size info
    let rest ← writeDataSection alignment offsetData (size + bytes.length) rest
    pure (bytes ++ rest)

def writeMeta (ctx : GgufContext) : List UInt8 :=
  ggufMagic ++ (toLE 4 ctx.version ++ (toLE 8 ctx.info.length ++ (toLE 8 ctx.kv.length ++
    (ctx.kv.flatMap writeKv ++ ctx.info.flatMap writeTensorMeta))))

def ggufWriteToBuf (ctx : GgufContext) (onlyMeta : Bool) : Except GgufStop (List UInt8) := do
  let buf := writeMeta ctx ++ padding (writeMeta ctx).length ctx.alignment
  if onlyMeta then pure buf else do
    let data ← writeDataSection ctx.alignment buf.length buf.length ctx.info
    pure (buf ++ data)

end LamaServer
