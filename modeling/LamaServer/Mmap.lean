import LamaServer.Lib.Align

/-!
# Mappings of model files

`llama_mmap::impl` where files are mapped by POSIX. A mapping keeps the fragments of the file that
are still mapped, as offsets, and gives whole pages of them back. The ranges that `munmap` is called
with are results here, and `Except.error` is a failed assertion.
-/

namespace LamaServer

/-- A call of `munmap`, with the offset from the start of the mapping. -/
structure Munmap where
  offset : ℕ
  len : ℕ
deriving DecidableEq, Repr

/-- The pages that the call removes: those that contain any part of the range. -/
def Munmap.pages (pageSize : ℕ) (call : Munmap) : Set ℕ :=
  {page | ∃ x, call.offset ≤ x ∧ x < call.offset + call.len ∧ x / pageSize = page}

/-- `munmap` takes a range that is not empty and starts at a page. -/
def Munmap.Valid (pageSize : ℕ) (call : Munmap) : Prop :=
  pageSize ∣ call.offset ∧ 0 < call.len

/-- `struct llama_mmap::impl`, without the address of the mapping. -/
structure LlamaMmap where
  size : ℕ
  mappedFragments : List (ℕ × ℕ)
deriving DecidableEq, Repr

/-- The assertions of `unmap_fragment`. -/
inductive MmapAbort
  | firstNotAligned | lastNotAligned | emptyRange
deriving DecidableEq, Repr

namespace LlamaMmap

/-- The constructor, on a file of `size` bytes that `mmap` maps. -/
def ofFile (size : ℕ) : LlamaMmap := ⟨size, [(0, size)]⟩

/-- `align_range`, in 64 bits -/
def alignRange (first last pageSize : ℕ) : ℕ × ℕ :=
  let offsetInPage := first &&& (pageSize - 1)
  let offsetToPage := if offsetInPage = 0 then 0 else pageSize - offsetInPage
  let first := (first + offsetToPage) % 2 ^ 64
  let last := last &&& (2 ^ 64 - pageSize)
  (first, if last ≤ first then first else last)

/-- What is left of a fragment when `[first, last)` is gone. -/
def newFragments (first last : ℕ) (frag : ℕ × ℕ) : List (ℕ × ℕ) :=
  if frag.1 < first ∧ frag.2 > last then [(frag.1, first), (last, frag.2)]
  else if frag.1 < first ∧ frag.2 > first then [(frag.1, first)]
  else if frag.1 < last ∧ frag.2 > last then [(last, frag.2)]
  else if frag.1 ≥ first ∧ frag.2 ≤ last then []
  else [frag]

/-- `unmap_fragment`, with its calls of `munmap` -/
def unmapFragment (pageSize : ℕ) (m : LlamaMmap) (first last : ℕ) :
    Except MmapAbort (List Munmap × LlamaMmap) := do
  let (first, last) := alignRange first last pageSize
  let len := last - first
  if len = 0 then return ([], m)
  if first % pageSize ≠ 0 then throw .firstNotAligned
  if last % pageSize ≠ 0 then throw .lastNotAligned
  if ¬ last > first then throw .emptyRange
  return ([⟨first, len⟩],
    { m with mappedFragments := m.mappedFragments.flatMap (newFragments first last) })

/-- `unmap_fragment` of one range after the other -/
def unmapFragments (pageSize : ℕ) (m : LlamaMmap) (ranges : List (ℕ × ℕ)) :
    Except MmapAbort (List Munmap × LlamaMmap) :=
  ranges.foldlM (fun (calls, m) (first, last) => do
    let (call, m) ← m.unmapFragment pageSize first last
    return (calls ++ call, m)) ([], m)

/-- The calls of `munmap` of the destructor. -/
def destroy (m : LlamaMmap) : List Munmap :=
  m.mappedFragments.map fun frag => ⟨frag.1, frag.2 - frag.1⟩

end LlamaMmap

end LamaServer
