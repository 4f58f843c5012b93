import LamaServer.Lib.Tiles

/-!
# The chunks of a matrix multiplication

`ggml_compute_forward_mul_mat` and `ggml_compute_forward_mul_mat_one_chunk`. The vector dot product
of the type of `src0` is a function of the addresses of a row of `src0` and a column of `src1`, and
the conversion of a block to its type a function of the address of the block. What a thread does is
a list of stores of values at addresses. Without the llamafile kernels; addresses and counts are
natural numbers.
-/

namespace LamaServer

open Tiles (stride storeAll)

/-- The tensors of a multiplication, whose result `ggml_mul_mat` has made, and its threads. -/
structure MulMat where
  ne0 : ℕ
  ne1 : ℕ
  ne2 : ℕ
  ne3 : ℕ
  ne02 : ℕ
  ne03 : ℕ
  ne10 : ℕ
  nb01 : ℕ
  nb02 : ℕ
  nb03 : ℕ
  nb11 : ℕ
  nb12 : ℕ
  nb13 : ℕ
  /-- `ggml_is_contiguous(src1)` -/
  src1Cont : Bool
  /-- `src1->type != vec_dot_type` -/
  converts : Bool
  /-- of `vec_dot_type` -/
  blckSize : ℕ
  typeSize : ℕ
  vecDotNumRows : ℕ
  nth : ℕ
  isNuma : Bool
  nth_pos : 0 < nth
  vecDotNumRows_eq : vecDotNumRows = 1 ∨ vecDotNumRows = 2
  blckSize_pos : 0 < blckSize
  typeSize_pos : 0 < typeSize
  blckSize_dvd : blckSize ∣ ne10

namespace MulMat

variable (m : MulMat) {F : Type}

/-- `sizeof(float)` -/
def nb0 : ℕ := 4
def nb1 : ℕ := nb0 * m.ne0
def nb2 : ℕ := m.nb1 * m.ne1
def nb3 : ℕ := m.nb2 * m.ne2

/-- `ggml_row_size` of the type of the vector dot product -/
def rowSize : ℕ := m.typeSize * m.ne10 / m.blckSize

def nr0 : ℕ := m.ne0
def nr1 : ℕ := m.ne1 * m.ne2 * m.ne3

def chunkSize : ℕ := if m.nr0 = 1 ∨ m.nr1 = 1 then 64 else 16

/-- How many chunks there are in the two dimensions. -/
def chunks : ℕ × ℕ :=
  let nchunk0 := (m.nr0 + m.chunkSize - 1) / m.chunkSize
  let nchunk1 := (m.nr1 + m.chunkSize - 1) / m.chunkSize
  if nchunk0 * nchunk1 < m.nth * 4 ∨ m.isNuma then
    (if m.nr0 > m.nr1 then m.nth else 1, if m.nr0 > m.nr1 then 1 else m.nth)
  else (nchunk0, nchunk1)

def nchunk0 : ℕ := m.chunks.1
def nchunk1 : ℕ := m.chunks.2
def nchunk : ℕ := m.nchunk0 * m.nchunk1

def dr0 : ℕ := (m.nr0 + m.nchunk0 - 1) / m.nchunk0
def dr1 : ℕ := (m.nr1 + m.nchunk1 - 1) / m.nchunk1

/-- Where the column `i11`, `i12`, `i13` of `src1` is, or its copy in `wdata`. -/
def src1Col (i11 i12 i13 : ℕ) : ℕ :=
  if m.src1Cont || m.converts then (i11 + i12 * m.ne1 + i13 * m.ne2 * m.ne1) * m.rowSize
  else i11 * m.nb11 + i12 * m.nb12 + i13 * m.nb13

def src1ColStride : ℕ := if m.src1Cont || m.converts then m.rowSize else m.nb11

/-- The matrix of `src0` that is broadcast to a matrix of `src1`. -/
def src0Row (i12 i13 : ℕ) : ℕ :=
  i12 / (m.ne2 / m.ne02) * m.nb02 + i13 / (m.ne3 / m.ne03) * m.nb03

def dstCol (i1 i2 i3 : ℕ) : ℕ := i1 * m.nb1 + i2 * m.nb2 + i3 * m.nb3

/-- The indices of a column of `src1` by its number. -/
def split (ir1 : ℕ) : ℕ × ℕ × ℕ :=
  let i13 := ir1 / (m.ne2 * m.ne1)
  let i12 := (ir1 - i13 * m.ne2 * m.ne1) / m.ne1
  (ir1 - i13 * m.ne2 * m.ne1 - i12 * m.ne1, i12, i13)

/-- `vec_dot`, which writes the products of `nrc` rows and `nrc` columns. -/
def vecDotRows (vecDot : ℕ → ℕ → F) (s bs x bx y by' nrc : ℕ) : List (ℕ × F) :=
  (List.range nrc).flatMap fun c => (List.range nrc).map fun r =>
    (s + r + c * bs, vecDot (x + r * bx) (y + c * by'))

/-- The loop over the rows of a tile, which fills `tmp`, and the copies to the result. -/
def oneRow (vecDot : ℕ → ℕ → F) (tmp : ℕ → F) (numRows ir0End iir0 ir1 : ℕ) : List (ℕ × F) :=
  let (i11, i12, i13) := m.split ir1
  let tmp := storeAll ((stride iir0 (min (iir0 + 16) ir0End) numRows).flatMap fun ir0 =>
    vecDotRows vecDot (ir0 - iir0) (if 1 < numRows then 16 else 0) (m.src0Row i12 i13 + ir0 * m.nb01)
      (if 1 < numRows then m.nb01 else 0) (m.src1Col i11 i12 i13)
      (if 1 < numRows then m.src1ColStride else 0) numRows) tmp
  (List.range numRows).flatMap fun cn =>
    (List.range (min (iir0 + 16) ir0End - iir0)).map fun k =>
      (m.dstCol i11 i12 i13 + nb0 * (iir0 + cn * m.nb1 / nb0) + nb0 * k, tmp (cn * 16 + k))

/-- `ggml_compute_forward_mul_mat_one_chunk` -/
def oneChunk (vecDot : ℕ → ℕ → F) (tmp : ℕ → F) (numRows ir0Start ir0End ir1Start ir1End : ℕ) :
    List (ℕ × F) :=
  if ir0Start ≥ ir0End ∨ ir1Start ≥ ir1End then []
  else (stride ir1Start ir1End 16).flatMap fun iir1 =>
    (stride ir0Start ir0End 16).flatMap fun iir0 =>
      (stride iir1 (min (iir1 + 16) ir1End) numRows).flatMap fun ir1 =>
        m.oneRow vecDot tmp numRows ir0End iir0 ir1

/-- How many rows and columns the dot product takes in a chunk. -/
def numRowsPerVecDot (ir0Start ir0End ir1Start ir1End : ℕ) : ℕ :=
  if m.nr0 % 2 ≠ 0 ∨ m.ne1 % 2 ≠ 0 ∨ ((ir0End : ℤ) - ir0Start) % 2 ≠ 0 ∨
      ((ir1End : ℤ) - ir1Start) % 2 ≠ 0 then 1
  else m.vecDotNumRows

/-- What is computed for a chunk; `tmp` is on the stack. -/
def chunk (vecDot : ℕ → ℕ → F) (tmp : ℕ → F) (currentChunk : ℕ) : List (ℕ × F) :=
  let ir0Start := m.dr0 * (currentChunk % m.nchunk0)
  let ir0End := min (ir0Start + m.dr0) m.nr0
  let ir1Start := m.dr1 * (currentChunk / m.nchunk0)
  let ir1End := min (ir1Start + m.dr1) m.nr1
  m.oneChunk vecDot tmp (m.numRowsPerVecDot ir0Start ir0End ir1Start ir1End) ir0Start ir0End
    ir1Start ir1End

/-- Where a block of `src1` is that is converted; the rows of `src1` are of floats. -/
def src1Block (i11 i12 i13 block : ℕ) : ℕ :=
  i13 * m.nb13 + i12 * m.nb12 + i11 * m.nb11 + block * m.blckSize * 4

/-- The blocks of a row from `start` on that a thread does not convert any more. -/
def blockStart (ith : ℕ) : ℕ := ith * m.ne10 / m.blckSize / m.nth

/-- The part of `src1` that a thread converts to `wdata`; `from_float` converts block by block. -/
def convert (fromFloat : ℕ → F) (ith : ℕ) : List (ℕ × F) :=
  if m.converts then
    (List.range m.ne3).flatMap fun i13 => (List.range m.ne2).flatMap fun i12 =>
      (List.range m.ne1).flatMap fun i11 =>
        (List.range (m.blockStart (ith + 1) - m.blockStart ith)).map fun t =>
          (i13 * (m.rowSize * m.ne1 * m.ne2) + i12 * (m.rowSize * m.ne1) + i11 * m.rowSize +
              m.blockStart ith * m.typeSize + t * m.typeSize,
            fromFloat (i13 * m.nb13 + i12 * m.nb12 + i11 * m.nb11 +
              m.blockStart ith * m.blckSize * 4 + t * (m.blckSize * 4)))
  else []

end MulMat

end LamaServer
