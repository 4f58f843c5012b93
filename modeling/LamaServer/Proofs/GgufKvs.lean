import LamaServer.Gguf
import Mathlib.Data.List.Flatten

/-!
# The key-value pairs of a GGUF file

What the loop over the key-value pairs has read off a file: entries one after another, whose bytes
are laid out as the format says. `readKvs_eq_ok` is exact, so it serves a file from elsewhere and
one that was written.
-/

namespace LamaServer

open Format (toLE)

/-- The call ends otherwise than with `nullptr` or a result. -/
abbrev Faults {α : Type} (x : Except GgufStop α) : Prop := Except.Throws (· ≠ .nullptr) x

theorem readBytes_eq_ok {n : Nat} {bs a rest : List UInt8} :
    readBytes n bs = .ok (a, rest) ↔ a.length = n ∧ bs = a ++ rest := by
  rw [readBytes, Except.ofOption_eq_ok]
  constructor
  · intro h
    exact (Format.eq_of_takeBytes h).symm
  · rintro ⟨h, rfl⟩
    exact Format.takeBytes_append h rest

theorem readUnsigned_eq_ok {w n : Nat} {bs rest : List UInt8} :
    readUnsigned w bs = .ok (n, rest) ↔ n < 256 ^ w ∧ bs = toLE w n ++ rest := by
  rw [readUnsigned, Except.ofOption_eq_ok, Format.read_eq_some]
  rfl

theorem readBlock_eq_ok {w : Nat} {b : Format.Block w} {bs rest : List UInt8} :
    Except.ofOption GgufStop.nullptr ((Format.block w).read bs) = .ok (b, rest) ↔
      bs = b.1 ++ rest := by
  rw [Except.ofOption_eq_ok, Format.read_eq_some]
  exact and_iff_right trivial

theorem readInt64_eq_ok {n : Nat} {bs rest : List UInt8} :
    readInt64 bs = .ok ((n : Int), rest) ↔ n < 2 ^ 63 ∧ bs = toLE 8 n ++ rest := by
  rw [readInt64, Except.ofOption_eq_ok, Format.read_eq_some]
  change (-(256 ^ 8) ≤ 2 * (n : Int) ∧ 2 * (n : Int) < 256 ^ 8) ∧
    bs = toLE 8 (Format.ofSigned 8 n) ++ rest ↔ _
  constructor
  · rintro ⟨h, rfl⟩
    have hn : n < 2 ^ 63 := by omega
    exact ⟨hn, by rw [Format.ofSigned_natCast (by omega)]⟩
  · rintro ⟨h, rfl⟩
    exact ⟨by omega, by rw [Format.ofSigned_natCast (by omega)]⟩

@[simp] theorem not_faults_readBytes {n : Nat} {bs : List UInt8} : ¬ Faults (readBytes n bs) :=
  Except.not_throws_ofOption (by simp)

@[simp] theorem not_faults_readUnsigned {w : Nat} {bs : List UInt8} :
    ¬ Faults (readUnsigned w bs) :=
  Except.not_throws_ofOption (by simp)

@[simp] theorem not_faults_readInt64 {bs : List UInt8} : ¬ Faults (readInt64 bs) :=
  Except.not_throws_ofOption (by simp)

@[simp] theorem ggmlAssert_eq_ok {p : Prop} [Decidable p] {u : Unit} :
    ggmlAssert p = .ok u ↔ p := by
  unfold ggmlAssert
  split_ifs with h <;> simp [h]

@[simp] theorem faults_ggmlAssert {p : Prop} [Decidable p] : Faults (ggmlAssert p) ↔ ¬ p := by
  unfold ggmlAssert
  split_ifs with h <;> simp [h]

@[simp] theorem sizeT_eq_ok {n m : Nat} : sizeT n = .ok m ↔ n < 2 ^ 64 ∧ n = m := by
  unfold sizeT
  split_ifs with h
  · simpa using fun hm => hm ▸ h
  · simpa using fun hn => absurd hn h

@[simp] theorem faults_sizeT {n : Nat} : Faults (sizeT n) ↔ 2 ^ 64 ≤ n := by
  unfold sizeT
  split_ifs with h
  · simpa using h
  · simpa using h

/-- A string as a file has it. -/
def strBytes (s : List UInt8) : List UInt8 := toLE 8 s.length ++ s

section Strings

variable {alloc : Nat → Bool} {bs rest s : List UInt8}

/-- A string for which the memory is granted. -/
def Granted (alloc : Nat → Bool) (s : List UInt8) : Prop :=
  s.length < 2 ^ 64 ∧ alloc s.length = true

theorem readString_eq_ok :
    readString alloc bs = .ok (s, rest) ↔ Granted alloc s ∧ bs = strBytes s ++ rest := by
  simp only [readString, Except.bind_eq_ok, Prod.exists, readUnsigned_eq_ok]
  constructor
  · rintro ⟨n, bs, ⟨hn, rfl⟩, h⟩
    split_ifs at h with ha
    · obtain ⟨rfl, rfl⟩ := readBytes_eq_ok.1 h
      exact ⟨⟨hn, ha⟩, by simp [strBytes]⟩
  · rintro ⟨⟨hn, ha⟩, rfl⟩
    refine ⟨s.length, s ++ rest, ⟨hn, by simp [strBytes]⟩, ?_⟩
    rw [if_pos ha]
    exact readBytes_eq_ok.2 ⟨rfl, rfl⟩

/-- The length of a string for which the memory is not granted. -/
def OversizedString (alloc : Nat → Bool) (bs : List UInt8) : Prop :=
  ∃ n < 2 ^ 64, alloc n = false ∧ ∃ rest, bs = toLE 8 n ++ rest

theorem throws_readString {E : GgufStop → Prop} (hE : ¬ E .nullptr) :
    Except.Throws E (readString alloc bs) ↔
      E .exception ∧ OversizedString alloc bs := by
  have hread : ∀ n bs, ¬ Except.Throws E (readBytes n bs) :=
    fun n bs => Except.not_throws_ofOption hE
  have hnum : ∀ bs, ¬ Except.Throws E (readUnsigned 8 bs) :=
    fun bs => Except.not_throws_ofOption hE
  simp only [readString, Except.throws_bind, hnum, false_or, Prod.exists, readUnsigned_eq_ok]
  constructor
  · rintro ⟨n, bs, ⟨hn, rfl⟩, h⟩
    split_ifs at h with ha
    · exact absurd h (hread n bs)
    · exact ⟨Except.throws_error.1 h, n, hn, by simpa using ha, bs, rfl⟩
  · rintro ⟨h, n, hn, ha, rest, rfl⟩
    exact ⟨n, rest, ⟨hn, rfl⟩, by simpa [ha] using h⟩

theorem caught_eq_ok {α : Type} {x : Except GgufStop α} {a : α} :
    caught x = .ok a ↔ x = .ok a := by
  rcases x with (_ | _ | _ | _ | _ | _) | a <;> simp [caught]

theorem faults_caught {α : Type} {x : Except GgufStop α} :
    Faults (caught x) ↔ Except.Throws (fun e => e ≠ .nullptr ∧ e ≠ .exception) x := by
  rcases x with (_ | _ | _ | _ | _ | _) | a <;> simp [caught]

@[simp] theorem not_faults_caught_readString : ¬ Faults (caught (readString alloc bs)) := by
  rw [faults_caught, throws_readString (by simp)]
  simp

end Strings

section Elems

variable {alloc : Nat → Bool} {t : GgufType}

def elemBytes (t : GgufType) (e : List UInt8) : List UInt8 :=
  if t = .string then strBytes e else e

/-- An element as the reader keeps it. -/
def readAs (t : GgufType) (e : List UInt8) : List UInt8 := if t = .bool then boolByte e else e

/-- What a file can have for an element. -/
def ReadableElem (alloc : Nat → Bool) (t : GgufType) (e : List UInt8) : Prop :=
  (t = .string → Granted alloc e) ∧ (t ≠ .string → e.length = ggufTypeSize t)

theorem ReadableElem.isElem {e : List UInt8} (h : ReadableElem alloc t e) :
    IsElem t (readAs t e) := by
  unfold readAs
  split_ifs with hb
  · subst hb
    exact isElem_boolByte e
  · exact ⟨h.2, fun h => absurd h hb⟩

theorem readElem_eq_ok {bs rest : List UInt8} {x : {e : List UInt8 // IsElem t e}} :
    readElem alloc t bs = .ok (x, rest) ↔
      ∃ e, ReadableElem alloc t e ∧ x.1 = readAs t e ∧ bs = elemBytes t e ++ rest := by
  by_cases ht : t = .string
  · subst ht
    simp only [readElem, ReadableElem, readAs, elemBytes, Except.bind_eq_ok, Prod.exists,
      readString_eq_ok, Except.pure_eq_ok, Prod.mk.injEq, Subtype.ext_iff, dite_true, if_true,
      reduceCtorEq, if_false, ne_eq, not_true, false_imp_iff, and_true, true_imp_iff]
    constructor
    · rintro ⟨e, bs, ⟨he, rfl⟩, hx, rfl⟩
      exact ⟨e, he, hx.symm, rfl⟩
    · rintro ⟨e, he, hx, rfl⟩
      exact ⟨e, rest, ⟨he, rfl⟩, hx.symm, rfl⟩
  by_cases hb : t = .bool
  · subst hb
    simp only [readElem, ReadableElem, readAs, elemBytes, Except.bind_eq_ok, Prod.exists,
      readBlock_eq_ok, Except.pure_eq_ok, Prod.mk.injEq, Subtype.ext_iff, dite_true, if_true,
      reduceCtorEq, if_false, dite_false, ne_eq, not_false_iff, false_imp_iff, true_and,
      true_imp_iff]
    constructor
    · rintro ⟨e, bs, rfl, hx, rfl⟩
      exact ⟨e.1, e.2, hx.symm, rfl⟩
    · rintro ⟨e, he, hx, rfl⟩
      exact ⟨⟨e, he⟩, rest, rfl, hx.symm, rfl⟩
  · simp only [readElem, ReadableElem, readAs, elemBytes, Except.bind_eq_ok, Prod.exists,
      readBlock_eq_ok, Except.pure_eq_ok, Prod.mk.injEq, Subtype.ext_iff, ht, hb, if_false,
      dite_false, ne_eq, not_false_iff, false_imp_iff, true_and, true_imp_iff]
    constructor
    · rintro ⟨e, bs, rfl, hx, rfl⟩
      exact ⟨e.1, e.2, hx.symm, rfl⟩
    · rintro ⟨e, he, hx, rfl⟩
      exact ⟨⟨e, he⟩, rest, rfl, hx.symm, rfl⟩

theorem throws_readElem {E : GgufStop → Prop} (hE : ¬ E .nullptr) {bs : List UInt8} :
    Except.Throws E (readElem alloc t bs) ↔
      t = .string ∧ Except.Throws E (readString alloc bs) := by
  unfold readElem
  split_ifs with ht hb
  · simp [ht]
  · simp [ht, Except.not_throws_ofOption hE]
  · simp [ht, Except.not_throws_ofOption hE]

theorem faults_readElem {bs : List UInt8} :
    Faults (readElem alloc t bs) ↔ t = .string ∧ OversizedString alloc bs := by
  unfold Faults
  rw [throws_readElem (by simp), throws_readString (by simp)]
  simp

theorem readElems_eq_ok : ∀ {n : Nat} {bs rest : List UInt8}
    {xs : List {e : List UInt8 // IsElem t e}}, readElems alloc t n bs = .ok (xs, rest) ↔
      ∃ es : List (List UInt8), es.length = n ∧ (∀ e ∈ es, ReadableElem alloc t e) ∧
        xs.map (·.1) = es.map (readAs t) ∧ bs = es.flatMap (elemBytes t) ++ rest
  | 0, bs, rest, xs => by
    simp only [readElems, Except.ok.injEq, Prod.mk.injEq, List.length_eq_zero_iff]
    constructor
    · rintro ⟨rfl, rfl⟩
      exact ⟨[], rfl, by simp, rfl, rfl⟩
    · rintro ⟨es, rfl, -, hxs, rfl⟩
      exact ⟨(List.map_eq_nil_iff.1 hxs).symm, rfl⟩
  | n + 1, bs, rest, xs => by
    simp only [readElems, Except.bind_eq_ok, Prod.exists, readElem_eq_ok, Except.pure_eq_ok,
      Prod.mk.injEq]
    constructor
    · rintro ⟨x, bs, ⟨e, he, hx, rfl⟩, xs, rest, hxs, rfl, rfl⟩
      obtain ⟨es, rfl, hes, hmap, rfl⟩ := readElems_eq_ok.1 hxs
      exact ⟨e :: es, rfl, List.forall_mem_cons.2 ⟨he, hes⟩, by simp [hx, hmap], by simp⟩
    · rintro ⟨_ | ⟨e, es⟩, hn, hes, hxs, rfl⟩
      · cases hn
      rcases xs with _ | ⟨x, xs⟩
      · cases hxs
      obtain ⟨hx, hmap⟩ := List.cons.inj hxs
      obtain ⟨he, hes⟩ := List.forall_mem_cons.1 hes
      exact ⟨x, es.flatMap (elemBytes t) ++ rest, ⟨e, he, hx, by simp⟩, xs, rest,
        readElems_eq_ok.2 ⟨es, by simpa using hn, hes, hmap, rfl⟩, rfl, rfl⟩

theorem not_throws_readElems {E : GgufStop → Prop} (hE : ¬ E .nullptr) (hE' : ¬ E .exception) :
    ∀ {n : Nat} {bs : List UInt8}, ¬ Except.Throws E (readElems alloc t n bs)
  | 0, bs => by simp [readElems]
  | n + 1, bs => by
    simp [readElems, throws_readElem hE, throws_readString hE, hE', not_throws_readElems hE hE']

theorem readVector_eq_ok {n : Nat} {bs rest : List UInt8}
    {xs : List {e : List UInt8 // IsElem t e}} : readVector alloc t n bs = .ok (xs, rest) ↔
      alloc (vectorBytes t n) = true ∧ readElems alloc t n bs = .ok (xs, rest) := by
  unfold readVector
  split_ifs with ha <;> simp [ha]

theorem not_faults_caught_readVector {n : Nat} {bs : List UInt8} :
    ¬ Faults (caught (readVector alloc t n bs)) := by
  rw [faults_caught]
  unfold readVector
  split_ifs
  · exact not_throws_readElems (by simp) (by simp)
  · simp

end Elems

section Kvs

variable {alloc : Nat → Bool}

/-- A key-value pair as a file has it. -/
structure GgufKvEntry where
  key : List UInt8
  isArray : Bool
  type : GgufType
  elems : List (List UInt8)

namespace GgufKvEntry

def typeBytes (isArray : Bool) (t : GgufType) (n : Nat) : List UInt8 :=
  if isArray then toLE 4 GgufType.array.code ++ (toLE 4 t.code ++ toLE 8 n) else toLE 4 t.code

def bytes (e : GgufKvEntry) : List UInt8 :=
  strBytes e.key ++ (typeBytes e.isArray e.type e.elems.length ++
    e.elems.flatMap (elemBytes e.type))

/-- The values are complete, and the memory for what the file asks for is granted. -/
structure ReadableValue (alloc : Nat → Bool) (e : GgufKvEntry) : Prop where
  elems : ∀ x ∈ e.elems, ReadableElem alloc e.type x
  one : e.isArray = false → e.elems.length = 1
  many : e.isArray = true → alloc (vectorBytes e.type e.elems.length) = true

theorem ReadableValue.exists_elems {e : GgufKvEntry} (h : e.ReadableValue alloc) :
    ∃ xs : List {x // IsElem e.type x}, xs.map (·.1) = e.elems.map (readAs e.type) := by
  refine CanLift.prf (e.elems.map (readAs e.type)) fun x hx => ?_
  obtain ⟨y, hy, rfl⟩ := List.mem_map.1 hx
  exact (h.elems y hy).isElem

structure Readable (alloc : Nat → Bool) (e : GgufKvEntry) : Prop extends ReadableValue alloc e where
  key : Granted alloc e.key
  type_ne : e.type ≠ .array
  length_lt : e.elems.length < 2 ^ 64

/-- The pair that an entry is read as. -/
structure Is (e : GgufKvEntry) (kv : GgufKv) : Prop where
  key_ne : e.key ≠ []
  key : kv.key = e.key
  isArray : kv.isArray = e.isArray
  type : kv.type = e.type
  elems : kv.elems = e.elems.map (readAs e.type)

end GgufKvEntry

theorem readType_eq_ok {t : GgufType} (ht : t ≠ .array) {isArray : Bool} {n : Nat}
    {bs rest : List UInt8} : readType bs = .ok (isArray, t.code, n, rest) ↔
      n < 2 ^ 64 ∧ (isArray = false → n = 1) ∧ bs = GgufKvEntry.typeBytes isArray t n ++ rest := by
  have hcode : t.code ≠ GgufType.array.code := fun h =>
    ht (by simpa [GgufType.ofCode_code] using congrArg GgufType.ofCode h)
  have hlt : t.code < 256 ^ 4 := t.code_lt.trans (by decide)
  simp only [readType, Except.bind_eq_ok, Prod.exists, readUnsigned_eq_ok]
  constructor
  · rintro ⟨type, bs, ⟨-, rfl⟩, h⟩
    split_ifs at h with harr
    · simp only [Except.bind_eq_ok, Prod.exists, readUnsigned_eq_ok, Except.pure_eq_ok,
        Prod.mk.injEq] at h
      obtain ⟨type, bs, ⟨-, rfl⟩, n, bs, ⟨hn, rfl⟩, rfl, rfl, rfl, rfl⟩ := h
      exact ⟨hn, by simp, by simp [GgufKvEntry.typeBytes, harr]⟩
    · obtain ⟨rfl, rfl, rfl, rfl⟩ := by simpa [Except.pure_eq_ok] using h
      exact ⟨by norm_num, by simp, rfl⟩
  · rintro ⟨hn, hone, rfl⟩
    rcases isArray with _ | _
    · refine ⟨t.code, rest, ⟨hlt, rfl⟩, ?_⟩
      rw [if_neg hcode, hone rfl]
      rfl
    · refine ⟨GgufType.array.code, toLE 4 t.code ++ (toLE 8 n ++ rest),
        ⟨by decide, by simp [GgufKvEntry.typeBytes]⟩, ?_⟩
      simp only [if_true, Except.bind_eq_ok, Prod.exists, readUnsigned_eq_ok]
      exact ⟨t.code, _, ⟨hlt, rfl⟩, n, rest, ⟨hn, rfl⟩, rfl⟩

@[simp] theorem not_faults_readType {bs : List UInt8} : ¬ Faults (readType bs) := by
  simp only [readType, Except.throws_bind, not_faults_readUnsigned, false_or, Prod.exists,
    not_exists, not_and]
  intro type bs _
  split_ifs <;> simp

section Emplace

variable {key : List UInt8} {isArray : Bool} {t : GgufType} {ht : t ≠ .array}

theorem emplaceKv_eq_ok {es : List {e : List UInt8 // IsElem t e}}
    {hes : isArray = false → es.length = 1} {kv : GgufKv} :
    emplaceKv key isArray ht es hes = .ok kv ↔ key ≠ [] ∧ kv.key = key ∧ kv.isArray = isArray ∧
      kv.type = t ∧ kv.elems = es.map (·.1) := by
  unfold emplaceKv
  split_ifs with hkey
  · simp [hkey]
  · simp only [Except.ok.injEq, ne_eq, hkey, not_false_iff, true_and]
    constructor
    · rintro rfl
      exact ⟨rfl, rfl, rfl, rfl⟩
    · rintro ⟨h1, h2, h3, h4⟩
      exact GgufKv.ext h1.symm h2.symm h3.symm h4.symm

theorem faults_emplaceKv {es : List {e : List UInt8 // IsElem t e}}
    {hes : isArray = false → es.length = 1} :
    Faults (emplaceKv key isArray ht es hes) ↔ key = [] := by
  unfold emplaceKv
  split_ifs with hkey <;> simp [hkey]

/-- What is read of an entry past its type. -/
def ReadsValue (alloc : Nat → Bool) (e : GgufKvEntry) (bs rest : List UInt8) : Prop :=
  e.ReadableValue alloc ∧ bs = e.elems.flatMap (elemBytes e.type) ++ rest

theorem ggufReadEmplaceHelper_eq_ok {n : Nat} {bs rest : List UInt8} {kv : GgufKv} :
    ggufReadEmplaceHelper alloc key isArray t ht n bs = .ok (kv, rest) ↔
      ∃ e : GgufKvEntry, e.key = key ∧ e.isArray = isArray ∧ e.type = t ∧
        (isArray = true → e.elems.length = n) ∧ ReadsValue alloc e bs rest ∧ e.Is kv := by
  unfold ggufReadEmplaceHelper
  rcases isArray with _ | _
  · simp only [Bool.false_eq_true, if_false, Except.bind_eq_ok, Prod.exists, readElem_eq_ok,
      emplaceKv_eq_ok, Except.pure_eq_ok, Prod.mk.injEq]
    constructor
    · rintro ⟨x, bs, ⟨y, hy, hxy, rfl⟩, kv, ⟨hkey, h1, h2, h3, h4⟩, rfl, rfl⟩
      refine ⟨⟨key, false, t, [y]⟩, rfl, rfl, rfl, by simp, ⟨⟨by simpa using hy, by simp, by simp⟩,
        by simp⟩, ⟨hkey, h1, h2, h3, by simp [h4, hxy]⟩⟩
    · rintro ⟨e, rfl, harr, rfl, -, ⟨hv, rfl⟩, ⟨hkey, h1, h2, h3, h4⟩⟩
      obtain ⟨y, hy⟩ := List.length_eq_one_iff.1 (hv.one harr)
      have hread := hv.elems y (by simp [hy])
      exact ⟨⟨_, hread.isElem⟩, rest, ⟨y, hread, rfl, by simp [hy]⟩, kv,
        ⟨hkey, h1, h2.trans harr, h3, by simp [h4, hy]⟩, rfl, rfl⟩
  · simp only [if_true, Except.bind_eq_ok, Prod.exists, caught_eq_ok, readVector_eq_ok,
      emplaceKv_eq_ok, Except.pure_eq_ok, Prod.mk.injEq]
    constructor
    · rintro ⟨xs, bs, ⟨ha, h⟩, kv, ⟨hkey, h1, h2, h3, h4⟩, rfl, rfl⟩
      obtain ⟨es, rfl, hes, hmap, rfl⟩ := readElems_eq_ok.1 h
      exact ⟨⟨key, true, t, es⟩, rfl, rfl, rfl, by simp, ⟨⟨hes, by simp, fun _ => ha⟩, rfl⟩,
        ⟨hkey, h1, h2, h3, h4.trans hmap⟩⟩
    · rintro ⟨e, rfl, harr, rfl, hn, ⟨hv, rfl⟩, ⟨hkey, h1, h2, h3, h4⟩⟩
      obtain rfl := hn trivial
      obtain ⟨xs, hxs⟩ := hv.exists_elems
      exact ⟨xs, rest,
        ⟨hv.many harr, readElems_eq_ok.2 ⟨e.elems, rfl, hv.elems, hxs, rfl⟩⟩, kv,
        ⟨hkey, h1, h2.trans harr, h3, h4.trans hxs.symm⟩, rfl, rfl⟩

theorem faults_ggufReadEmplaceHelper {n : Nat} {bs : List UInt8} :
    Faults (ggufReadEmplaceHelper alloc key isArray t ht n bs) ↔
      (isArray = false ∧ t = .string ∧ OversizedString alloc bs) ∨
      ∃ (e : GgufKvEntry) (rest : List UInt8), key = [] ∧ e.key = key ∧ e.isArray = isArray ∧
        e.type = t ∧ (isArray = true → e.elems.length = n) ∧ ReadsValue alloc e bs rest := by
  unfold ggufReadEmplaceHelper
  rcases isArray with _ | _
  · simp only [Bool.false_eq_true, if_false, Except.throws_bind, faults_readElem, true_and,
      Prod.exists, readElem_eq_ok, faults_emplaceKv, Except.not_throws_pure, and_false,
      exists_false, or_false]
    refine or_congr_right ⟨?_, ?_⟩
    · rintro ⟨x, rest, ⟨y, hy, -, rfl⟩, hkey⟩
      exact ⟨⟨key, false, t, [y]⟩, rest, hkey, rfl, rfl, rfl, by simp,
        ⟨by simpa using hy, by simp, by simp⟩, by simp⟩
    · rintro ⟨e, rest, hkey, -, harr, rfl, -, hv, rfl⟩
      obtain ⟨y, hy⟩ := List.length_eq_one_iff.1 (hv.one harr)
      have hread := hv.elems y (by simp [hy])
      exact ⟨⟨_, hread.isElem⟩, rest, ⟨y, hread, rfl, by simp [hy]⟩, hkey⟩
  · simp only [if_true, Except.throws_bind, not_faults_caught_readVector, Prod.exists,
      caught_eq_ok, readVector_eq_ok, faults_emplaceKv, Except.not_throws_pure, and_false,
      exists_false, or_false, false_or, reduceCtorEq, false_and]
    constructor
    · rintro ⟨xs, rest, ⟨ha, h⟩, hkey⟩
      obtain ⟨es, rfl, hes, -, rfl⟩ := readElems_eq_ok.1 h
      exact ⟨⟨key, true, t, es⟩, rest, hkey, rfl, rfl, rfl, by simp, ⟨hes, by simp, fun _ => ha⟩,
        rfl⟩
    · rintro ⟨e, rest, hkey, -, harr, rfl, hn, hv, rfl⟩
      obtain rfl := hn trivial
      obtain ⟨xs, hxs⟩ := hv.exists_elems
      exact ⟨xs, rest,
        ⟨hv.many harr, readElems_eq_ok.2 ⟨e.elems, rfl, hv.elems, hxs, rfl⟩⟩, hkey⟩

end Emplace

theorem readKv_eq_ok {kvs kvs' : List GgufKv} {bs rest : List UInt8} :
    readKv alloc (kvs, bs) = .ok (kvs', rest) ↔ ∃ (e : GgufKvEntry) (kv : GgufKv),
      e.Readable alloc ∧ e.Is kv ∧ e.key ∉ kvs.map (·.key) ∧ bs = e.bytes ++ rest ∧ kvs' = kvs ++ [kv] := by
  simp only [readKv, Except.bind_eq_ok, Prod.exists, caught_eq_ok, readString_eq_ok]
  constructor
  · rintro ⟨key, bs, ⟨hkey, rfl⟩, h⟩
    split_ifs at h with hdup
    simp only [Except.bind_eq_ok, Prod.exists] at h
    obtain ⟨isArray, type, n, bs', htype, h⟩ := h
    split at h
    · cases h
    rename_i t hcode
    rw [GgufType.ofCode_eq_some] at hcode
    subst hcode
    split_ifs at h with ht
    obtain ⟨hn, hone, rfl⟩ := (readType_eq_ok ht).1 htype
    simp only [Except.bind_eq_ok, Prod.exists, Except.pure_eq_ok, Prod.mk.injEq] at h
    obtain ⟨kv, rest, h, rfl, rfl⟩ := h
    obtain ⟨e, rfl, rfl, rfl, hlen, ⟨hv, rfl⟩, his⟩ := ggufReadEmplaceHelper_eq_ok.1 h
    have hlen' : e.elems.length = n := by
      rcases harr : e.isArray with _ | _
      · rw [hv.one harr, hone harr]
      · exact hlen harr
    subst hlen'
    exact ⟨e, kv, ⟨hv, hkey, ht, hn⟩, his, hdup, by simp [GgufKvEntry.bytes], rfl⟩
  · rintro ⟨e, kv, he, his, hdup, rfl, rfl⟩
    refine ⟨e.key, _, ⟨he.key, by rw [GgufKvEntry.bytes, List.append_assoc]⟩, ?_⟩
    rw [if_neg hdup]
    simp only [Except.bind_eq_ok, Prod.exists]
    refine ⟨e.isArray, e.type.code, e.elems.length, _,
      (readType_eq_ok he.type_ne).2 ⟨he.length_lt, he.one, List.append_assoc ..⟩, ?_⟩
    rw [GgufType.ofCode_code]
    simp only [he.type_ne, dite_false, Except.bind_eq_ok, Prod.exists, Except.pure_eq_ok,
      Prod.mk.injEq]
    exact ⟨kv, rest, ggufReadEmplaceHelper_eq_ok.2
      ⟨e, rfl, rfl, rfl, fun _ => rfl, ⟨he.toReadableValue, rfl⟩, his⟩, rfl, rfl⟩

/-- An entry with an empty key, complete. -/
def EmptyKey (alloc : Nat → Bool) (bs : List UInt8) : Prop :=
  ∃ (e : GgufKvEntry) (rest : List UInt8), e.Readable alloc ∧ e.key = [] ∧ bs = e.bytes ++ rest

/-- An entry with a new key and a single string for which the memory is not granted. -/
def OversizedValue (alloc : Nat → Bool) (keys : List (List UInt8)) (bs : List UInt8) : Prop :=
  ∃ key rest, Granted alloc key ∧ key ∉ keys ∧ OversizedString alloc rest ∧
    bs = strBytes key ++ (GgufKvEntry.typeBytes false .string 1 ++ rest)

theorem faults_readKv {kvs : List GgufKv} {bs : List UInt8} :
    Faults (readKv alloc (kvs, bs)) ↔
      EmptyKey alloc bs ∨ OversizedValue alloc (kvs.map (·.key)) bs := by
  simp only [readKv, Except.throws_bind, not_faults_caught_readString, false_or, Prod.exists,
    caught_eq_ok, readString_eq_ok]
  constructor
  · rintro ⟨key, bs, ⟨hkey, rfl⟩, h⟩
    split_ifs at h with hdup
    · simp at h
    simp only [Except.throws_bind, not_faults_readType, false_or, Prod.exists] at h
    obtain ⟨isArray, type, n, bs', htype, h⟩ := h
    split at h
    · simp at h
    rename_i t hcode
    rw [GgufType.ofCode_eq_some] at hcode
    subst hcode
    split_ifs at h with ht
    · simp at h
    obtain ⟨hn, hone, rfl⟩ := (readType_eq_ok ht).1 htype
    simp only [Except.throws_bind, Except.not_throws_pure, and_false, exists_false,
      or_false] at h
    obtain ⟨rfl, rfl, hover⟩ | ⟨e, rest, hnil, rfl, rfl, rfl, hlen, hv, rfl⟩ :=
      faults_ggufReadEmplaceHelper.1 h
    · rw [hone rfl]
      exact .inr ⟨key, bs', hkey, hdup, hover, rfl⟩
    · have hlen' : e.elems.length = n := by
        rcases harr : e.isArray with _ | _
        · rw [hv.one harr, hone harr]
        · exact hlen harr
      subst hlen'
      exact .inl ⟨e, rest, ⟨hv, hkey, ht, hn⟩, hnil, by simp [GgufKvEntry.bytes]⟩
  · have hkv : [] ∉ kvs.map (·.key) := by
      intro h
      obtain ⟨kv, -, hkv⟩ := List.mem_map.1 h
      exact kv.key_ne hkv
    rintro (⟨e, rest, he, hnil, rfl⟩ | ⟨key, rest, hkey, hdup, hover, rfl⟩)
    · refine ⟨e.key, _, ⟨he.key, by rw [GgufKvEntry.bytes, List.append_assoc]⟩, ?_⟩
      rw [if_neg (hnil ▸ hkv)]
      simp only [Except.throws_bind, not_faults_readType, false_or, Prod.exists]
      refine ⟨e.isArray, e.type.code, e.elems.length, _,
        (readType_eq_ok he.type_ne).2 ⟨he.length_lt, he.one, List.append_assoc ..⟩, ?_⟩
      rw [GgufType.ofCode_code]
      simp only [he.type_ne, dite_false, Except.throws_bind]
      exact .inl (faults_ggufReadEmplaceHelper.2 (.inr
        ⟨e, rest, hnil, rfl, rfl, rfl, fun _ => rfl, he.toReadableValue, rfl⟩))
    · refine ⟨key, _, ⟨hkey, rfl⟩, ?_⟩
      rw [if_neg hdup]
      simp only [Except.throws_bind, not_faults_readType, false_or, Prod.exists]
      refine ⟨false, GgufType.string.code, 1, rest, (readType_eq_ok (by simp)).2
        ⟨by norm_num, fun _ => rfl, rfl⟩, ?_⟩
      rw [GgufType.ofCode_code]
      simp only [reduceCtorEq, dite_false, Except.throws_bind]
      exact .inl (faults_ggufReadEmplaceHelper.2 (.inl ⟨rfl, rfl, hover⟩))

/-- The file goes on with `n` entries of distinct keys, read as `kvs`. -/
def KvsAt (alloc : Nat → Bool) (n : Nat) (kvs : List GgufKv) (bs rest : List UInt8) : Prop :=
  ∃ es : List GgufKvEntry, es.length = n ∧ List.Forall₂ GgufKvEntry.Is es kvs ∧
    (∀ e ∈ es, e.Readable alloc) ∧ (es.map (·.key)).Nodup ∧ bs = es.flatMap (·.bytes) ++ rest

theorem iterate_readKv_eq_ok : ∀ {n : Nat} {kvs kvs' : List GgufKv} {bs rest : List UInt8},
    Except.iterate (readKv alloc) n (kvs, bs) = .ok (kvs', rest) ↔
      ∃ es kvs₁, es.length = n ∧ List.Forall₂ GgufKvEntry.Is es kvs₁ ∧
        (∀ e ∈ es, e.Readable alloc) ∧
        (es.map (·.key)).Nodup ∧ (∀ e ∈ es, e.key ∉ kvs.map (·.key)) ∧
        bs = es.flatMap (·.bytes) ++ rest ∧ kvs' = kvs ++ kvs₁
  | 0, kvs, kvs', bs, rest => by
    simp only [Except.iterate, Except.ok.injEq, Prod.mk.injEq]
    constructor
    · rintro ⟨rfl, rfl⟩
      exact ⟨[], [], rfl, .nil, by simp, by simp, by simp, rfl, by simp⟩
    · rintro ⟨es, kvs₁, hn, his, -, -, -, rfl, rfl⟩
      obtain rfl := List.length_eq_zero_iff.1 hn
      obtain rfl := List.forall₂_nil_left_iff.1 his
      simp
  | n + 1, kvs, kvs', bs, rest => by
    simp only [Except.iterate_succ_eq_ok, Prod.exists, readKv_eq_ok]
    constructor
    · rintro ⟨kvs₁, bs, ⟨e, kv, he, his, hdup, rfl, rfl⟩, h⟩
      obtain ⟨es, kvs₂, rfl, hes, hread, hnodup, hnew, rfl, rfl⟩ := iterate_readKv_eq_ok.1 h
      have hkey : ∀ x ∈ es, x.key ≠ e.key := fun x hx h =>
        hnew x hx (by simp [h, ← his.key])
      refine ⟨e :: es, kv :: kvs₂, rfl, .cons his hes, List.forall_mem_cons.2 ⟨he, hread⟩, ?_, ?_,
        by simp, by simp⟩
      · rw [List.map_cons, List.nodup_cons]
        refine ⟨fun h => ?_, hnodup⟩
        obtain ⟨x, hx, hxe⟩ := List.mem_map.1 h
        exact hkey x hx hxe
      · refine List.forall_mem_cons.2 ⟨hdup, fun x hx h => hnew x hx ?_⟩
        rw [List.map_append]
        exact List.mem_append_left _ h
    · rintro ⟨_ | ⟨e, es⟩, kvs₁, hn, his, hread, hnodup, hnew, rfl, rfl⟩
      · cases hn
      obtain ⟨kv, kvs₂, hkv, hes, rfl⟩ := List.forall₂_cons_left_iff.1 his
      obtain ⟨he, hread⟩ := List.forall_mem_cons.1 hread
      obtain ⟨hdup, hnew⟩ := List.forall_mem_cons.1 hnew
      rw [List.map_cons, List.nodup_cons] at hnodup
      refine ⟨kvs ++ [kv], es.flatMap (·.bytes) ++ rest, ⟨e, kv, he, hkv, hdup, by simp, rfl⟩,
        iterate_readKv_eq_ok.2 ⟨es, kvs₂, by simpa using hn, hes, hread, hnodup.2, ?_, rfl,
          by simp⟩⟩
      intro x hx h
      rw [List.map_append, List.mem_append] at h
      rcases h with h | h
      · exact hnew x hx h
      · have hxe : x.key = e.key := by simpa [hkv.key] using h
        exact hnodup.1 (List.mem_map.2 ⟨x, hx, hxe⟩)

theorem readKvs_eq_ok {n : Nat} {kvs : List GgufKv} {bs rest : List UInt8} :
    Except.iterate (readKv alloc) n ([], bs) = .ok (kvs, rest) ↔ KvsAt alloc n kvs bs rest := by
  rw [iterate_readKv_eq_ok, KvsAt]
  constructor
  · rintro ⟨es, kvs, hn, his, hread, hnodup, -, hbs, rfl⟩
    exact ⟨es, hn, his, hread, hnodup, hbs⟩
  · rintro ⟨es, hn, his, hread, hnodup, hbs⟩
    exact ⟨es, kvs, hn, his, hread, hnodup, by simp, hbs, rfl⟩

theorem KvsAt.length {n : Nat} {kvs : List GgufKv} {bs rest : List UInt8}
    (h : KvsAt alloc n kvs bs rest) : kvs.length = n := by
  obtain ⟨es, rfl, his, -⟩ := h
  exact his.length_eq.symm

theorem KvsAt.nodup {n : Nat} {kvs : List GgufKv} {bs rest : List UInt8}
    (h : KvsAt alloc n kvs bs rest) : (kvs.map (·.key)).Nodup := by
  obtain ⟨es, -, his, -, hnodup, -⟩ := h
  have hkeys : kvs.map (·.key) = es.map (·.key) := by
    induction his with
    | nil => rfl
    | cons h _ ih =>
      rw [List.map_cons, List.nodup_cons] at hnodup
      rw [List.map_cons, List.map_cons, h.key, ih hnodup.2]
  rwa [hkeys]

end Kvs

end LamaServer
