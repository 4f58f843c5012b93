import Mathlib.Logic.Function.Basic
import LamaServer.Lib.Except

/-!
# The ring of accepted tokens

`ring_buffer`, of which `llama-sampling.cpp` and `common/sampling.cpp` have a copy each. They differ
in `push_back` alone. `size_t` is `Nat`: no sum here exceeds twice the length of the vector.
-/

namespace LamaServer

/-- How a member of `ring_buffer` does not return. -/
inductive RingError where
  | runtimeError (what : String)
  /-- there is no such entry of the vector, or the division is by zero -/
  | undefined
  deriving DecidableEq

/-- `ring_buffer<T>`. -/
structure SamplingRing (α : Type) where
  capacity : Nat
  sz : Nat
  first : Nat
  pos : Nat
  data : List α

/-- The copies of the class. -/
inductive RingCopy where
  | llamaSampling
  | commonSampling

/-- What changes a ring. -/
inductive RingOp (α : Type) where
  | pushBack (value : α)
  | popFront
  | clear

namespace SamplingRing

variable {α : Type}

/-- The constructor; `value` is a value-initialized `T`. -/
def new (cap : Nat) (value : α) : SamplingRing α := ⟨cap, 0, 0, 0, List.replicate cap value⟩

variable (s : SamplingRing α)

/-- `data[i]`. -/
def entry (i : Nat) : Except RingError α := .ofOption .undefined s.data[i]?

/-- `data[i] = value`. -/
def store (i : Nat) (value : α) : Except RingError (List α) :=
  if i < s.data.length then pure (s.data.set i value) else throw .undefined

/-- `i % capacity`. -/
def wrap (i : Nat) : Except RingError Nat :=
  if s.capacity = 0 then throw .undefined else pure (i % s.capacity)

def front : Except RingError α :=
  if s.sz = 0 then throw (.runtimeError "ring buffer is empty") else s.entry s.first

def back : Except RingError α :=
  if s.sz = 0 then throw (.runtimeError "ring buffer is empty") else s.entry s.pos

/-- `push_back` of `common/sampling.cpp`. -/
def pushBackCommon (value : α) : Except RingError (SamplingRing α) := do
  let (first, sz) ←
    if s.sz = s.capacity then pure (← s.wrap (s.first + 1), s.sz) else pure (s.first, s.sz + 1)
  let data ← s.store s.pos value
  let pos ← s.wrap (s.pos + 1)
  pure { s with sz := sz, first := first, pos := pos, data := data }

/-- `push_back` of `llama-sampling.cpp`. -/
def pushBackLlama (value : α) : Except RingError (SamplingRing α) := do
  if s.capacity = 0 then throw (.runtimeError "ring buffer: capacity is zero")
  let (first, sz) ←
    if s.sz = s.capacity then pure (← s.wrap (s.first + 1), s.sz) else pure (s.first, s.sz + 1)
  let data ← s.store s.pos value
  let pos ← s.wrap (s.pos + 1)
  pure { s with sz := sz, first := first, pos := pos, data := data }

def pushBack : RingCopy → α → Except RingError (SamplingRing α)
  | .llamaSampling => s.pushBackLlama
  | .commonSampling => s.pushBackCommon

def popFront : Except RingError (α × SamplingRing α) := do
  if s.sz = 0 then throw (.runtimeError "ring buffer is empty")
  let value ← s.entry s.first
  let first ← s.wrap (s.first + 1)
  pure (value, { s with first := first, sz := s.sz - 1 })

def rat (i : Nat) : Except RingError α := do
  if i ≥ s.sz then throw (.runtimeError "ring buffer: index out of bounds")
  s.entry (← s.wrap (s.first + s.sz - i - 1))

def toVector : Except RingError (List α) :=
  (List.range s.sz).mapM fun i => do s.entry (← s.wrap (s.first + i))

/-- The entries stay in the vector. -/
def clear : SamplingRing α := { s with sz := 0, first := 0, pos := 0 }

def empty : Bool := s.sz == 0

def size : Nat := s.sz

/-- What one call makes of the ring, and what it returns or throws. A call that throws has changed
nothing. -/
def step (copy : RingCopy) : RingOp α → SamplingRing α × Except RingError (Option α)
  | .pushBack value =>
    match s.pushBack copy value with
    | .ok s => (s, .ok none)
    | .error e => (s, .error e)
  | .popFront =>
    match s.popFront with
    | .ok (value, s) => (s, .ok (some value))
    | .error e => (s, .error e)
  | .clear => (s.clear, .ok none)

/-- The ring after a sequence of calls, and the outcome of each. -/
def run (copy : RingCopy) (s : SamplingRing α) :
    List (RingOp α) → SamplingRing α × List (Except RingError (Option α))
  | [] => (s, [])
  | op :: ops =>
    let rest := run copy (s.step copy op).1 ops
    (rest.1, (s.step copy op).2 :: rest.2)

end SamplingRing

/-! ## What a ring is for -/

section Deque

variable {α : Type}

/-- A deque of at most `cap` entries, which drops the oldest one when it is full. -/
def dequeStep (cap : Nat) (l : List α) : RingOp α → List α
  | .pushBack value => (if l.length = cap then l.tail else l) ++ [value]
  | .popFront => l.tail
  | .clear => []

/-- The last entries that were pushed and not popped. -/
def dequeAfter (cap : Nat) (ops : List (RingOp α)) : List α := ops.foldl (dequeStep cap) []

/-- The places of a ring's vector: how many pushes there were since the last `clear`, and what was
last written in each place. -/
structure RingSlots (α : Type) where
  pushes : Nat
  slot : Nat → α

/-- Each push writes the place behind that of the push before, and round to the first place; `clear`
goes back to the first place. -/
def RingSlots.step (cap : Nat) (w : RingSlots α) : RingOp α → RingSlots α
  | .pushBack value => ⟨w.pushes + 1, Function.update w.slot (w.pushes % cap) value⟩
  | .popFront => w
  | .clear => { w with pushes := 0 }

/-- The places after a sequence of calls on a vector of equal entries. -/
def slotsAfter (cap : Nat) (value : α) (ops : List (RingOp α)) : RingSlots α :=
  ops.foldl (RingSlots.step cap) ⟨0, fun _ => value⟩

/-- What is in the place that the next push writes. -/
def RingSlots.next (cap : Nat) (w : RingSlots α) : α := w.slot (w.pushes % cap)

/-- All that can be asked of a ring is answered as by a list. -/
structure AnswersAs (s : SamplingRing α) (l : List α) : Prop where
  toVector : s.toVector = .ok l
  front : s.front = .ofOption (.runtimeError "ring buffer is empty") l.head?
  back : s.back = .ofOption (.runtimeError "ring buffer is empty") l.getLast?
  rat : ∀ i, s.rat i = .ofOption (.runtimeError "ring buffer: index out of bounds") l.reverse[i]?
  size : s.size = l.length
  empty : s.empty = l.isEmpty

/-- Both copies of the class do the same, and answer as the bounded deque. -/
structure RefinesDeque (cap : Nat) (value : α) (ops : List (RingOp α)) : Prop where
  copies : (SamplingRing.new cap value).run .llamaSampling ops =
    (SamplingRing.new cap value).run .commonSampling ops
  answers : AnswersAs ((SamplingRing.new cap value).run .commonSampling ops).1
    (dequeAfter cap ops)

end Deque

end LamaServer
