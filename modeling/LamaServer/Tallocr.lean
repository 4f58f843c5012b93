import LamaServer.GraphAlloc
import LamaServer.Lib.Transition

/-!
# The dynamic allocator with sizes of 64 bits

The calls of `ggml_dyn_tallocr_alloc` and `ggml_dyn_tallocr_free_tensor` with any `size_t`: of the
sums only the one in `aligned_offset` can leave the 64 bits, since blocks lie within half of them.
-/

namespace LamaServer

open FreeList

/-- What a call ends with that does not return: `GGML_ABORT`, or a read of `free_blocks[-1]`. -/
inductive TallocrError where
  | abort
  | undefined
  deriving DecidableEq, Repr

namespace DynTallocr

variable (alloc : DynTallocr)

/-- `ggml_dyn_tallocr_alloc` -/
def allocWord (alignment size : ℕ) : Except TallocrError (ℕ × DynTallocr) :=
  let size := alignedOffset size alignment % 2 ^ 64
  if alloc.freeBlocks = [] then .error .undefined
  else match alloc.findBlock size with
    | none => .error .abort
    | some i =>
      match alloc.freeBlocks[i]? with
      | none => .error .undefined
      | some block =>
        let left : Block := ⟨block.offset + size, block.size - size⟩
        let blocks :=
          if left.size = 0 then alloc.freeBlocks.eraseIdx i else alloc.freeBlocks.set i left
        .ok (block.offset, ⟨blocks, max alloc.maxSize (block.offset + size)⟩)

/-- `ggml_dyn_tallocr_free_tensor` -/
def freeWord (alignment offset size : ℕ) : Except TallocrError DynTallocr :=
  let size := alignedOffset size alignment % 2 ^ 64
  match mergeBlock offset size [] alloc.freeBlocks with
  | some blocks => .ok { alloc with freeBlocks := blocks }
  | none =>
    if alloc.freeBlocks.length < maxFreeBlocks then
      .ok { alloc with
        freeBlocks := alloc.freeBlocks.takeWhile (·.offset < offset) ++
          ⟨offset, size⟩ :: alloc.freeBlocks.dropWhile (·.offset < offset) }
    else .error .abort

end DynTallocr

/-- A `size_t` that is not 0. -/
abbrev TensorSize := {n : ℕ // 0 < n ∧ n < 2 ^ 64}

/-- What was allocated and has not been freed, and as a ghost the ends of all allocations. -/
structure Measured where
  alloc : DynTallocr
  live : List (ℕ × TensorSize)
  ends : List ℕ

/-- A call; what is freed is one of the allocated blocks, by its number. -/
inductive TallocrOp where
  | alloc (size : TensorSize)
  | free (i : ℕ)

namespace Measured

/-- `ggml_dyn_tallocr_reset` -/
def reset : Measured := ⟨.reset, [], []⟩

/-- The allocated blocks: what was asked for, up to the next multiple of the alignment. -/
def blocks (alignment : ℕ) (s : Measured) : List Block :=
  s.live.map fun t => ⟨t.1, alignedOffset t.2 alignment⟩

/-- A call that returns. -/
def call (alignment : ℕ) (s : Measured) : TallocrOp → Except TallocrError Measured
  | .alloc size => do
    let (offset, alloc) ← s.alloc.allocWord alignment size
    return ⟨alloc, s.live ++ [(offset, size)], s.ends ++ [offset + alignedOffset size alignment]⟩
  | .free i =>
    match s.live[i]? with
    | none => .error .abort
    | some (offset, size) => do
      return ⟨← s.alloc.freeWord alignment offset size, s.live.eraseIdx i, s.ends⟩

end Measured

/-- A step of a run; anything may follow on what is undefined. -/
inductive TallocrStep (alignment : ℕ) (s : Measured) (op : TallocrOp) : Measured → Prop
  | returns {s' : Measured} (h : s.call alignment op = .ok s') : TallocrStep alignment s op s'
  | undefined {s' : Measured} (h : s.call alignment op = .error .undefined) :
    TallocrStep alignment s op s'

end LamaServer
