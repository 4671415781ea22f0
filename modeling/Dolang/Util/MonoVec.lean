import Dolang.Lib.Memory
import Dolang.Lib.Rust
import Mathlib.Data.Int.Notation
import Mathlib.Data.Nat.Log

/-!
# Vectors that grow without moving

`MonoVec` of `mono.rs`, over memory whose cells are the bytes of elements and of chunk pointers. Chunk
`k` has room for `2 ^ k` times as many elements as chunk 0, and the pointers to all chunks are an array
at the end of the last one. A new chunk gets a copy of that array, and one is also made when an element
would not fit before it.

What is undefined behaviour is an error of the model: an access outside of an allocation or to one that
is freed, and a read of cells that are not the bytes of one value. A layout that is too large panics, and
an allocation that is not is made. Sums of lengths wrap around.
-/

namespace Dolang.Util.MonoVec

open Dolang.Rust Dolang.Memory

/-- The layout of the elements' type. No type is larger than the compiler allows. -/
structure Elem where
  size : ℕ
  align : ℕ
  needsDrop : Bool
  align_pow : ∃ k, align = 2 ^ k
  align_dvd : align ∣ size
  size_lt : size < 2 ^ 61
  align_lt : align < 2 ^ 61

/-- A byte of memory: not initialised, of an element, or of a pointer to an allocation. -/
inductive Cell (V : Type) where
  | uninit
  | elem (value : V) (i : ℕ)
  | pointer (alloc : ℕ) (i : ℕ)
  deriving DecidableEq

/-! ## Layouts -/

/-- The base 2 logarithm of the next power of two. -/
def nextPowerLog (n : ℕ) : ℕ :=
  if n ≤ 1 then 0 else (n - 1).log2 + 1

/-- The least multiple of a number from another number on. -/
def roundUp (n m : ℕ) : ℕ :=
  (n + m - 1) / m * m

namespace Elem

variable (t : Elem)

/-- The size of `elem_layout`. -/
def step : ℕ :=
  if t.size = 0 then t.align else t.size

/-- `default_base_cap`. -/
def defaultBaseCap : ℕ :=
  (roundUp t.step 8 + 8 + t.step - 1) / t.step

/-- `log_base_cap`. -/
def logBaseCap : ℕ :=
  nextPowerLog t.defaultBaseCap

/-- `chunk_layout`: the size of a chunk, and where its index is. -/
def chunkLayout (index : ℕ) : Exec Undefined (ℕ × ℕ) :=
  let count := index + 1
  if 64 ≤ t.logBaseCap + index then abort
  else
    let cap := 2 ^ (t.logBaseCap + index)
    let indexSize := 8 * count
    let align := max t.align 8
    if 2 ^ 63 - align < t.step * cap then abort
    else
      let size := max indexSize (roundUp (t.step * cap) align)
      .ok (size, size - indexSize)

/-- `chunk_of`. -/
def chunkOf (index : ℕ) : ℕ :=
  (index / 2 ^ t.logBaseCap + 1).log2

/-- `chunk_base`. -/
def chunkBase (chunk : ℕ) : ℕ :=
  (2 ^ chunk - 1) * 2 ^ t.logBaseCap

/-- `coord_of`. -/
def coordOf (index : ℕ) : ℕ × ℕ :=
  let chunk := t.chunkOf index
  (chunk, index - t.chunkBase chunk)

/-- `elem_add`, as the distance from the start of a chunk. -/
def elemAdd (offset : ℕ) : Exec Undefined ℕ :=
  if t.step * offset ≤ usizeMax then .ok (t.step * offset) else abort

end Elem

/-! ## Values in memory -/

variable {V : Type}

/-- The bytes of a pointer to an allocation. -/
def pointerCells (alloc : ℕ) : List (Cell V) :=
  (List.range 8).map (.pointer alloc)

/-- The bytes of an element. One without a size is given those up to the next. -/
def elemCells (t : Elem) (value : V) : List (Cell V) :=
  (List.range t.step).map (.elem value)

variable [DecidableEq V]

/-- The pointer that some bytes are. -/
def readPointer : List (Cell V) → Option ℕ
  | .pointer alloc i :: cells =>
    if .pointer alloc i :: cells = pointerCells (V := V) alloc then some alloc else none
  | _ => none

/-- The element that some bytes are. -/
def readElem (t : Elem) : List (Cell V) → Option V
  | .elem value i :: cells =>
    if .elem value i :: cells = elemCells t value then some value else none
  | _ => none

end MonoVec

/-! ## The vector -/

/-- `Inner`, with the memory. An index is an allocation and where in it the pointers start. -/
structure MonoVec (V : Type) where
  index : Option (ℕ × ℕ)
  len : ℕ
  chunks : ℕ
  memory : Memory.Heap (MonoVec.Cell V)

namespace MonoVec

open Dolang.Rust Dolang.Memory

variable {V : Type} [DecidableEq V]

/-- `MonoVec::new`. -/
def new (memory : Heap (Cell V)) : MonoVec V where
  index := none
  len := 0
  chunks := 0
  memory

/-- The pointer to a chunk: `index.add(chunk).read()`. -/
def chunkPointer (v : MonoVec V) (chunk : ℕ) : Exec Undefined ℕ :=
  okOr .undefined do
    let (alloc, start) ← v.index
    readPointer (← load v.memory alloc (start + 8 * chunk) 8)

/-- The copy of the index to its new place. -/
def copyIndex (v : MonoVec V) (memory : Heap (Cell V)) (chunk offset : ℕ) :
    Exec Undefined (Heap (Cell V)) :=
  if v.chunks = 0 then .ok memory
  else okOr .undefined do
    let (alloc, start) ← v.index
    store memory chunk offset (← load memory alloc start (8 * v.chunks))

variable (t : Elem)

/-- One iteration of `ensure_chunk`. -/
def addChunk (v : MonoVec V) : Exec Undefined (MonoVec V) := do
  let (size, offset) ← t.chunkLayout v.chunks
  let (chunk, memory) := alloc v.memory size .uninit
  let memory ← v.copyIndex memory chunk offset
  let memory ← okOr .undefined (store memory chunk (offset + 8 * v.chunks) (pointerCells chunk))
  return { v with memory, index := some (chunk, offset), chunks := v.chunks + 1 }

/-- Some iterations of `ensure_chunk`. -/
def addChunks : ℕ → MonoVec V → Exec Undefined (MonoVec V)
  | 0, v => .ok v
  | n + 1, v => do addChunks n (← v.addChunk t)

/-- `ensure_chunk`. -/
def ensureChunk (v : MonoVec V) (chunk : ℕ) : Exec Undefined (MonoVec V) :=
  v.addChunks t (chunk + 1 - v.chunks)

/-- The second half of `ensure_index`: a chunk more where an element would be over the index. -/
def clearIndex (v : MonoVec V) (chunk subi : ℕ) : Exec Undefined (MonoVec V) := do
  let (_, indexOffset) ← t.chunkLayout chunk
  if indexOffset < (subi + 1) * t.step then v.ensureChunk t (chunk + 1) else .ok v

/-- `ensure_index`. -/
def ensureIndex (v : MonoVec V) (index : ℕ) : Exec Undefined (MonoVec V) := do
  let (chunk, subi) := t.coordOf index
  let v ← v.ensureChunk t chunk
  if chunk + 1 = v.chunks then v.clearIndex t chunk subi else .ok v

/-- `MonoVec::capacity`. -/
def capacity (v : MonoVec V) : Exec Undefined ℕ :=
  unwrap (checkedSub (t.chunkBase v.chunks) ((8 * v.chunks + t.step - 1) / t.step))

/-- `MonoVec::reserve`. -/
def reserve (v : MonoVec V) (additional : ℕ) : Exec Undefined (MonoVec V) :=
  if additional = 0 then .ok v
  else v.ensureIndex t ((v.len + additional - 1) % 2 ^ 64)

/-- Where an element is: its allocation, and its place in it. -/
def address (v : MonoVec V) (index : ℕ) : Exec Undefined (ℕ × ℕ) := do
  let (chunk, offset) := t.coordOf index
  let data ← v.chunkPointer chunk
  return (data, ← t.elemAdd offset)

/-- `MonoVec::push`. -/
def push (v : MonoVec V) (value : V) : Exec Undefined (MonoVec V) := do
  let v ← v.ensureIndex t v.len
  let (data, offset) ← v.address t v.len
  let memory ← okOr .undefined (store v.memory data offset (elemCells t value))
  return { v with memory, len := v.len + 1 }

/-- The element at an index, which is taken to be there. -/
def read (v : MonoVec V) (index : ℕ) : Exec Undefined V := do
  let (data, offset) ← v.address t index
  okOr .undefined ((load v.memory data offset t.step).bind (readElem t))

/-- `MonoVec::get`. -/
def get (v : MonoVec V) (index : ℕ) : Exec Undefined (Option V) :=
  if v.len ≤ index then .ok none
  else some <$> v.read t index

/-- `MonoVec::pop`. -/
def pop (v : MonoVec V) : Exec Undefined (Option V × MonoVec V) :=
  if v.len = 0 then .ok (none, v)
  else do
    let value ← v.read t (v.len - 1)
    return (some value, { v with len := v.len - 1 })

/-- `drop_in_place` of the elements of a chunk from one on. Their bytes are not to be used again. -/
def dropElems (data : ℕ) : ℕ → ℕ → Heap (Cell V) → Exec Undefined (List V × Heap (Cell V))
  | 0, _, memory => .ok ([], memory)
  | n + 1, i, memory => do
    let offset ← t.elemAdd i
    let value ← okOr .undefined ((load memory data offset t.step).bind (readElem t))
    let memory ← okOr .undefined (store memory data offset (List.replicate t.step .uninit))
    let (values, memory) ← dropElems data n (i + 1) memory
    return (value :: values, memory)

/-- One iteration of `Inner::drop`: the elements that it drops, and the memory without the chunk. -/
def dropChunk (v : MonoVec V) (chunk : ℕ) : Exec Undefined (List V × MonoVec V) := do
  let cap := 2 ^ (t.logBaseCap + chunk)
  let len := min (v.len - t.chunkBase chunk) cap
  let data ← v.chunkPointer chunk
  let (values, memory) ← dropElems t data (if t.needsDrop then len else 0) 0 v.memory
  let (size, _) ← t.chunkLayout chunk
  let memory ← okOr .undefined (free memory data size)
  return (values, { v with memory })

/-- The iterations of `Inner::drop` from one on. -/
def dropChunks : ℕ → ℕ → MonoVec V → Exec Undefined (List V × MonoVec V)
  | 0, _, v => .ok ([], v)
  | n + 1, chunk, v => do
    let (values, v) ← v.dropChunk t chunk
    let (rest, v) ← dropChunks n (chunk + 1) v
    return (values ++ rest, v)

/-- `Inner::drop`: the elements that are dropped, and the memory afterwards. -/
def drop (v : MonoVec V) : Exec Undefined (List V × Heap (Cell V)) := do
  let (values, v) ← v.dropChunks t v.chunks 0
  return (values, v.memory)

/-! ## Runs -/

/-- An operation of a program on a vector. -/
inductive Op (V : Type) where
  | push (value : V)
  | reserve (additional : ℕ)
  | pop

/-- An operation, with what it returns. -/
def apply (v : MonoVec V) : Op V → Exec Undefined (Option V × MonoVec V)
  | .push value => do return (none, ← v.push t value)
  | .reserve additional => do return (none, ← v.reserve t additional)
  | .pop => v.pop t

/-- Operations one after the other. -/
def run : MonoVec V → List (Op V) → Exec Undefined (List (Option V) × MonoVec V)
  | v, [] => .ok ([], v)
  | v, op :: ops => do
    let (r, v) ← v.apply t op
    let (rs, v) ← run v ops
    return (r :: rs, v)

end MonoVec

end Dolang.Util
