import Dolang.Lib.Memory
import Dolang.Lib.Rust
import Mathlib.Algebra.GroupWithZero.Nat
import Mathlib.Data.Int.Notation

/-!
# Interned byte strings

`BinTable` of `intern.rs`. Byte strings are copied into heap segments, each into the last one if it
fits and into a new one otherwise, and a string that is interned is found again by comparing it with
what is in memory (`Blob`). Its range of logical offsets is where `flatten` puts its bytes.

A cell of a segment that has not been written is uninitialised. Reading one, and any access outside of
a segment, is an error of the model, while a segment or a table that grows too large panics. The index
is searched in order, as a hash table finds the entry that is equal to a key wherever it is.
-/

namespace Dolang.Util

open Dolang.Rust Dolang.Memory

/-- The bytes in cells that are all initialised. -/
def readCells : List (Option UInt8) → Option (List UInt8)
  | [] => some []
  | none :: _ => none
  | some b :: cells => (readCells cells).map (b :: ·)

/-- `Segment`. Its capacity is the number of cells. -/
structure Segment where
  mem : List (Option UInt8)
  used : ℕ

namespace Segment

/-- `Segment::new`: no allocation is larger than an `isize` tells. -/
def new (cap : ℕ) : Exec Undefined Segment :=
  if cap ≤ 2 ^ 63 - 1 then .ok { mem := List.replicate cap none, used := 0 } else abort

def cap (s : Segment) : ℕ :=
  s.mem.length

/-- The bytes of a slice of a segment. -/
def read (s : Segment) (start len : ℕ) : Exec Undefined (List UInt8) :=
  if start + len ≤ s.cap then okOr .undefined (readCells ((s.mem.drop start).take len))
  else fail .undefined

/-- `Segment::bytes`. -/
def bytes (s : Segment) : Exec Undefined (List UInt8) :=
  s.read 0 s.used

/-- A copy of bytes to the end of the used part. -/
def write (s : Segment) (bytes : List UInt8) : Exec Undefined Segment :=
  if s.used + bytes.length ≤ s.cap then
    .ok {
      mem := s.mem.take s.used ++ bytes.map some ++ s.mem.drop (s.used + bytes.length)
      used := s.used + bytes.length }
  else fail .undefined

end Segment

/-- `Blob`: interned bytes within a segment. -/
structure Blob where
  segment : ℕ
  start : ℕ
  len : ℕ

/-- `Blob::bytes`. -/
def Blob.bytes (segments : List Segment) (blob : Blob) : Exec Undefined (List UInt8) :=
  match segments[blob.segment]? with
  | some s => s.read blob.start blob.len
  | none => fail .undefined

/-- `MIN_SEGMENT`. -/
def minSegment : ℕ := 4096

/-- `BinTable`. -/
structure BinTable where
  segments : List Segment
  index : List (Blob × ℕ)
  len : ℕ

namespace BinTable

/-- `BinTable::new`. -/
def new : BinTable where
  segments := []
  index := []
  len := 0

/-- The segments with a last one that has room for more bytes. -/
def makeRoom (segments : List Segment) (len : ℕ) : Exec Undefined (List Segment) :=
  let last := segments.getLast?
  if last.any fun s => decide (len ≤ s.cap - s.used) then .ok segments
  else do
    let cap := max (max ((last.map fun s => min (s.cap * 2) usizeMax).getD 0) len) minSegment
    let segment ← Segment.new cap
    return segments ++ [segment]

/-- `store`. -/
def store (segments : List Segment) (bytes : List UInt8) :
    Exec Undefined (List Segment × Blob) := do
  let segments ← makeRoom segments bytes.length
  let i := segments.length - 1
  let segment ← unwrap segments[i]?
  let written ← segment.write bytes
  return (segments.set i written, { segment := i, start := segment.used, len := bytes.length })

/-- The first entry from a place on with a key. -/
def findKey (segments : List Segment) (key : List UInt8) :
    List (Blob × ℕ) → ℕ → Exec Undefined (Option ℕ)
  | [], _ => .ok none
  | (blob, _) :: entries, i => do
    let bytes ← blob.bytes segments
    if bytes = key then .ok (some i) else findKey segments key entries (i + 1)

/-- `Id::new`: an id is not 0, and not the greatest value either. -/
def newId (i : ℕ) : Exec Undefined ℕ :=
  if i + 1 < 2 ^ 32 - 1 then .ok (i + 1) else abort

/-- `BinTable::id`. -/
def id (t : BinTable) (bytes : List UInt8) : Exec Undefined (ℕ × BinTable) := do
  match ← findKey t.segments bytes t.index 0 with
  | some i => return (← newId i, t)
  | none =>
    let start := t.len
    let (segments, blob) ← store t.segments bytes
    return (← newId t.index.length,
      { segments, index := t.index ++ [(blob, start)], len := start + bytes.length })

/-- `BinTable::append`. -/
def append (t : BinTable) (bytes : List UInt8) : Exec Undefined ((ℕ × ℕ) × BinTable) := do
  let start := t.len
  let (segments, _) ← store t.segments bytes
  return ((start, start + bytes.length), { t with segments, len := start + bytes.length })

/-- `BinTable::range`. -/
def range (t : BinTable) (id : ℕ) : Exec Undefined (ℕ × ℕ) := do
  let (blob, start) ← unwrap t.index[id - 1]?
  let bytes ← blob.bytes t.segments
  return (start, start + bytes.length)

/-- The bytes of segments one after the other. -/
def flattenFrom : List Segment → Exec Undefined (List UInt8)
  | [] => .ok []
  | s :: segments => do
    let bytes ← s.bytes
    let rest ← flattenFrom segments
    return bytes ++ rest

/-- `BinTable::flatten`. -/
def flatten (t : BinTable) : Exec Undefined (List UInt8) :=
  flattenFrom t.segments

/-! ## Runs -/

/-- An operation that adds to a table. -/
inductive Op where
  | id (bytes : List UInt8)
  | append (bytes : List UInt8)

/-- What an operation returns. -/
inductive Result where
  | id (id : ℕ)
  | range (start stop : ℕ)

/-- An operation on a table. -/
def apply (t : BinTable) : Op → Exec Undefined (Result × BinTable)
  | .id bytes => do
    let (id, t) ← t.id bytes
    return (.id id, t)
  | .append bytes => do
    let ((start, stop), t) ← t.append bytes
    return (.range start stop, t)

/-- Operations one after the other. -/
def run : BinTable → List Op → Exec Undefined (List Result × BinTable)
  | t, [] => .ok ([], t)
  | t, op :: ops => do
    let (r, t) ← t.apply op
    let (rs, t) ← run t ops
    return (r :: rs, t)

/-! ## What a table holds -/

theorem readCells_eq_some {cells : List (Option UInt8)} {bytes : List UInt8} :
    readCells cells = some bytes ↔ cells = bytes.map some := by
  induction cells generalizing bytes with
  | nil => cases bytes <;> simp [readCells]
  | cons c cells ih =>
    cases c with
    | none => cases bytes <;> simp [readCells]
    | some b =>
      cases bytes with
      | nil => simp [readCells]
      | cons b' bytes =>
        rw [readCells, Option.map_eq_some_iff]
        simp only [ih, List.map_cons, List.cons.injEq, Option.some.injEq]
        constructor
        · rintro ⟨rest, rfl, rfl, rfl⟩
          exact ⟨rfl, rfl⟩
        · rintro ⟨rfl, rfl⟩
          exact ⟨bytes, rfl, rfl, rfl⟩

/-- The used part of a segment. -/
structure Holds (s : Segment) (content : List UInt8) : Prop where
  used : s.used = content.length
  cells : s.mem.take content.length = content.map some

/-- A blob stands for bytes in the used part of a segment. -/
structure Stands (segments : List Segment) (blob : Blob) (bytes : List UInt8) : Prop where
  len : blob.len = bytes.length
  cells : ∃ s, segments[blob.segment]? = some s ∧ blob.start + blob.len ≤ s.used ∧
    s.used ≤ s.cap ∧ (s.mem.drop blob.start).take blob.len = bytes.map some

/-- The bytes of a buffer from an offset on. -/
def At (buffer : List UInt8) (start : ℕ) (bytes : List UInt8) : Prop :=
  ∃ front back, buffer = front ++ bytes ++ back ∧ front.length = start

theorem Holds.used_le {s : Segment} {content : List UInt8} (h : Holds s content) : s.used ≤ s.cap := by
  have hlen := congrArg List.length h.cells
  rw [List.length_take, List.length_map, ← h.used] at hlen
  rw [Segment.cap]
  omega

theorem Holds.bytes {s : Segment} {content : List UInt8} (h : Holds s content) :
    s.bytes = .ok content := by
  have hle := h.used_le
  rw [Segment.bytes, Segment.read, if_pos (by omega), List.drop_zero, h.used, h.cells,
    readCells_eq_some.mpr rfl]
  rfl

theorem Stands.bytes {segments : List Segment} {blob : Blob} {bytes : List UInt8}
    (h : Stands segments blob bytes) : blob.bytes segments = .ok bytes := by
  obtain ⟨-, s, hs, hle, hcap, hcells⟩ := h
  rw [Blob.bytes, hs]
  dsimp only
  rw [Segment.read, if_pos (by omega), hcells, readCells_eq_some.mpr rfl]
  rfl

theorem At.grow {buffer bytes : List UInt8} {start : ℕ} (h : At buffer start bytes)
    (more : List UInt8) : At (buffer ++ more) start bytes := by
  obtain ⟨front, back, rfl, hlen⟩ := h
  exact ⟨front, back ++ more, by simp only [List.append_assoc], hlen⟩

theorem At.drop_take {buffer bytes : List UInt8} {start : ℕ} (h : At buffer start bytes) :
    (buffer.drop start).take bytes.length = bytes := by
  obtain ⟨front, back, rfl, rfl⟩ := h
  rw [List.append_assoc, List.drop_left, List.take_left]

theorem At.le_length {buffer bytes : List UInt8} {start : ℕ} (h : At buffer start bytes) :
    start + bytes.length ≤ buffer.length := by
  obtain ⟨front, back, rfl, rfl⟩ := h
  rw [List.length_append, List.length_append]
  omega

/-- What segments hold, one after the other. -/
def Contents : List Segment → List UInt8 → Prop
  | [], buffer => buffer = []
  | s :: segments, buffer => ∃ content rest, Holds s content ∧ Contents segments rest ∧
      buffer = content ++ rest

theorem contents_append {l r : List Segment} {buffer : List UInt8} :
    Contents (l ++ r) buffer ↔ ∃ a b, Contents l a ∧ Contents r b ∧ buffer = a ++ b := by
  induction l generalizing buffer with
  | nil =>
    constructor
    · exact fun h => ⟨[], buffer, rfl, h, rfl⟩
    · rintro ⟨a, b, rfl, hb, rfl⟩
      exact hb
  | cons s l ih =>
    constructor
    · rintro ⟨content, rest, hs, hrest, rfl⟩
      obtain ⟨a, b, ha, hb, rfl⟩ := ih.mp hrest
      exact ⟨content ++ a, b, ⟨content, a, hs, ha, rfl⟩, hb, (List.append_assoc _ _ _).symm⟩
    · rintro ⟨a, b, ⟨content, rest, hs, hrest, rfl⟩, hb, rfl⟩
      exact ⟨content, rest ++ b, hs, ih.mpr ⟨rest, b, hrest, hb, rfl⟩, List.append_assoc _ _ _⟩

theorem contents_singleton {s : Segment} {buffer : List UInt8} :
    Contents [s] buffer ↔ Holds s buffer := by
  constructor
  · rintro ⟨content, rest, hs, rfl, rfl⟩
    rwa [List.append_nil]
  · exact fun h => ⟨buffer, [], h, rfl, (List.append_nil _).symm⟩

theorem flattenFrom_eq {segments : List Segment} {buffer : List UInt8}
    (h : Contents segments buffer) : flattenFrom segments = .ok buffer := by
  induction segments generalizing buffer with
  | nil =>
    obtain rfl : buffer = [] := h
    rfl
  | cons s segments ih =>
    obtain ⟨content, rest, hs, hrest, rfl⟩ := h
    rw [flattenFrom, hs.bytes, ok_bind, ih hrest]
    rfl

/-- A write goes behind what a segment holds. -/
theorem Holds.write {s : Segment} {content : List UInt8} (h : Holds s content)
    (bytes : List UInt8) (hroom : s.used + bytes.length ≤ s.cap) :
    ∃ s', s.write bytes = .ok s' ∧ Holds s' (content ++ bytes) ∧ s'.cap = s.cap ∧
      (s'.mem.drop s.used).take bytes.length = bytes.map some ∧
      ∀ start len, start + len ≤ s.used →
        (s'.mem.drop start).take len = (s.mem.drop start).take len := by
  have hused := h.used
  have htake : (s.mem.take s.used).length = s.used := List.length_take_of_le h.used_le
  refine ⟨_, if_pos hroom, ⟨?_, ?_⟩, ?_, ?_, ?_⟩
  · rw [List.length_append, ← hused]
  · dsimp only
    rw [List.length_append, List.map_append, ← h.cells, ← hused]
    refine List.take_left' ?_
    rw [List.length_append, htake, List.length_map]
  · rw [Segment.cap] at hroom
    simp only [Segment.cap, List.length_append, List.length_map, List.length_drop, htake]
    omega
  · dsimp only
    rw [List.append_assoc, List.drop_left' htake, List.take_left' (List.length_map ..)]
  · intro start len hle
    dsimp only
    rw [List.append_assoc, List.drop_append_of_le_length (by omega), List.take_append_of_le_length
      (by rw [List.length_drop, htake]; omega), List.drop_take, List.take_take]
    congr 1
    omega

/-- Making room keeps what there is, and the last segment then has the room. It panics only for more
bytes than half of an address space holds, since a segment is left only when it is too small. -/
theorem makeRoom_spec {segments : List Segment} {buffer : List UInt8}
    (h : Contents segments buffer) (len : ℕ) :
    (makeRoom segments len = abort ∧ 2 ^ 62 ≤ buffer.length + len) ∨
      ∃ (init : List Segment) (s : Segment), makeRoom segments len = .ok (init ++ [s]) ∧
        len ≤ s.cap - s.used ∧ Contents (init ++ [s]) buffer ∧
        ∀ (i : ℕ) (t : Segment), segments[i]? = some t → (init ++ [s])[i]? = some t := by
  unfold makeRoom
  by_cases hroom : (segments.getLast?.any fun s => decide (len ≤ s.cap - s.used)) = true
  · rw [if_pos hroom]
    obtain ⟨s, hlast, hlen⟩ := (Option.any_eq_true _ _).mp hroom
    obtain ⟨init, rfl⟩ := List.getLast?_eq_some_iff.mp hlast
    exact .inr ⟨init, s, rfl, of_decide_eq_true hlen, h, fun _ _ ht => ht⟩
  · rw [if_neg hroom]
    dsimp only
    generalize hcap : max (max ((segments.getLast?.map fun s => min (s.cap * 2) usizeMax).getD 0)
      len) minSegment = cap
    have hle : len ≤ cap := by omega
    unfold Segment.new
    split_ifs
    · refine .inr ⟨segments, _, rfl, ?_, contents_append.mpr ⟨buffer, [], h, ?_, ?_⟩, ?_⟩
      · simpa [Segment.cap] using hle
      · exact contents_singleton.mpr ⟨rfl, rfl⟩
      · rw [List.append_nil]
      · intro i t ht
        rw [List.getElem?_append_left (List.getElem?_eq_some_iff.mp ht).1, ht]
    · refine .inl ⟨rfl, ?_⟩
      have hlast : (segments.getLast?.map fun s => min (s.cap * 2) usizeMax).getD 0 ≤
          2 * (buffer.length + len) := by
        cases hl : segments.getLast? with
        | none => simp
        | some s =>
          rw [hl] at hroom
          simp only [Option.any_some, decide_eq_true_eq, Nat.not_le] at hroom
          obtain ⟨init, rfl⟩ := List.getLast?_eq_some_iff.mp hl
          obtain ⟨a, b, -, hs, rfl⟩ := contents_append.mp h
          have hused := (contents_singleton.mp hs).used
          simp only [Option.map_some, Option.getD_some, List.length_append]
          omega
      unfold minSegment at hcap
      omega

/-- A store puts the bytes behind all others, and every blob still stands for its bytes. -/
theorem store_spec {segments : List Segment} {buffer : List UInt8} (h : Contents segments buffer)
    (bytes : List UInt8) :
    (store segments bytes = abort ∧ 2 ^ 62 ≤ buffer.length + bytes.length) ∨
      ∃ segments' blob, store segments bytes = .ok (segments', blob) ∧
        Contents segments' (buffer ++ bytes) ∧ Stands segments' blob bytes ∧
        ∀ b x, Stands segments b x → Stands segments' b x := by
  unfold store
  obtain ⟨hnone, hbig⟩ | ⟨init, s, hroom, hlen, hcontents, hkeep⟩ := makeRoom_spec h bytes.length
  · rw [hnone]
    exact .inl ⟨rfl, hbig⟩
  · obtain ⟨a, content, hinit, hs, rfl⟩ := contents_append.mp hcontents
    rw [contents_singleton] at hs
    have hle := hs.used_le
    obtain ⟨s', hwrite, hs', hcap, hnew, hold⟩ := hs.write bytes (by omega)
    have hlast : (init ++ [s]).length - 1 = init.length := by simp
    have hget : (init ++ [s])[init.length]? = some s := by simp
    have hset : (init ++ [s]).set init.length s' = init ++ [s'] := by simp
    have hget' : (init ++ [s'])[init.length]? = some s' := by simp
    have hused := hs'.used
    rw [List.length_append, ← hs.used] at hused
    refine .inr ⟨init ++ [s'], ⟨init.length, s.used, bytes.length⟩, ?_, ?_, ⟨rfl, s', hget', ?_⟩, ?_⟩
    · simp only [hroom, ok_bind, hlast, hget, unwrap, hwrite, hset]
      rfl
    · refine contents_append.mpr ⟨a, content ++ bytes, hinit, contents_singleton.mpr hs', ?_⟩
      rw [List.append_assoc]
    · exact ⟨Nat.le_of_eq hused.symm, hs'.used_le, hnew⟩
    · rintro b x ⟨hb, t, ht, hbt, htcap, hcells⟩
      refine ⟨hb, ?_⟩
      have ht' := hkeep _ _ ht
      by_cases hsame : b.segment = init.length
      · -- The blob is in the segment that has been written to.
        rw [hsame] at ht' ⊢
        obtain rfl := Option.some.inj (hget.symm.trans ht')
        exact ⟨s', hget', by omega, hs'.used_le, (hold _ _ hbt).trans hcells⟩
      · refine ⟨t, ?_, hbt, htcap, hcells⟩
        rw [← hset, List.getElem?_set_ne (fun heq => hsame heq.symm), ht']

/-! ## What a run keeps -/

/-- A table holds a buffer, and its index has one entry for each of some keys, in the order in which
their bytes are in the buffer. -/
structure Ok (t : BinTable) (buffer : List UInt8) (keys : List (List UInt8)) : Prop where
  contents : Contents t.segments buffer
  len : t.len = buffer.length
  index : List.Forall₂ (fun e x => Stands t.segments e.1 x ∧ At buffer e.2 x) t.index keys
  order : t.index.Pairwise fun e e' => e.2 + e.1.len ≤ e'.2
  nodup : keys.Nodup

theorem ok_new : Ok new [] [] :=
  ⟨rfl, rfl, .nil, .nil, .nil⟩

/-- A search finds a key that is there. -/
theorem findKey_eq {segments : List Segment} {entries : List (Blob × ℕ)} {keys : List (List UInt8)}
    (h : List.Forall₂ (fun e x => Stands segments e.1 x) entries keys) (key : List UInt8) (i : ℕ) :
    findKey segments key entries i =
      .ok (if key ∈ keys then some (i + keys.idxOf key) else none) := by
  induction h generalizing i with
  | nil => simp [findKey]
  | @cons e x entries keys hx _ ih =>
    rw [findKey, hx.bytes, ok_bind]
    by_cases heq : x = key
    · subst heq
      simp
    · rw [if_neg heq, ih]
      have hne : ¬key = x := fun h => heq h.symm
      simp only [List.mem_cons, hne, false_or, List.idxOf_cons_ne _ (fun h => heq h)]
      split_ifs
      · congr 2
        omega
      · rfl

/-- The entries of a table are before the end of its buffer. -/
theorem Ok.end_le {t : BinTable} {buffer : List UInt8} {keys : List (List UInt8)}
    (h : Ok t buffer keys) {e : Blob × ℕ} (he : e ∈ t.index) : e.2 + e.1.len ≤ buffer.length := by
  obtain ⟨i, hi, rfl⟩ := List.getElem_of_mem he
  obtain ⟨hstands, hat⟩ := h.index.get hi (h.index.length_eq ▸ hi)
  have hle := hat.le_length
  rwa [← hstands.len] at hle

/-- What is stored keeps the entries of a table. -/
theorem Ok.stored {t : BinTable} {buffer : List UInt8} {keys : List (List UInt8)}
    (h : Ok t buffer keys) {segments : List Segment} {bytes : List UInt8}
    (hcontents : Contents segments (buffer ++ bytes))
    (hkeep : ∀ b x, Stands t.segments b x → Stands segments b x) :
    Ok { t with segments, len := t.len + bytes.length } (buffer ++ bytes) keys where
  contents := hcontents
  len := by rw [List.length_append, ← h.len]
  index := h.index.imp fun _ _ hx => ⟨hkeep _ _ hx.1, hx.2.grow bytes⟩
  order := h.order
  nodup := h.nodup

/-- An entry of a table stands for the key at its place. -/
theorem Ok.entry {t : BinTable} {buffer : List UInt8} {keys : List (List UInt8)}
    (h : Ok t buffer keys) {i : ℕ} {x : List UInt8} (hx : keys[i]? = some x) :
    ∃ e, t.index[i]? = some e ∧ Stands t.segments e.1 x ∧ At buffer e.2 x := by
  obtain ⟨hi, rfl⟩ := List.getElem?_eq_some_iff.mp hx
  have hi' : i < t.index.length := h.index.length_eq.symm ▸ hi
  exact ⟨t.index[i], List.getElem?_eq_getElem hi', h.index.get hi' hi⟩

/-- An entry for a new key goes behind all others. -/
theorem Ok.entered {t : BinTable} {buffer : List UInt8} {keys : List (List UInt8)}
    (h : Ok t buffer keys) {segments : List Segment} {blob : Blob} {bytes : List UInt8}
    (hcontents : Contents segments (buffer ++ bytes)) (hblob : Stands segments blob bytes)
    (hkeep : ∀ b x, Stands t.segments b x → Stands segments b x) (hnew : bytes ∉ keys) :
    Ok { segments, index := t.index ++ [(blob, t.len)], len := t.len + bytes.length }
      (buffer ++ bytes) (keys ++ [bytes]) where
  contents := hcontents
  len := by rw [List.length_append, ← h.len]
  index := by
    refine List.rel_append (h.stored hcontents hkeep).index (.cons ⟨hblob, buffer, [], ?_, ?_⟩ .nil)
    · rw [List.append_nil]
    · exact h.len.symm
  order := by
    refine List.pairwise_append.mpr ⟨h.order, List.pairwise_singleton _ _, ?_⟩
    intro e he e' he'
    obtain rfl := List.mem_singleton.mp he'
    exact h.len.symm ▸ h.end_le he
  nodup := by
    refine List.nodup_append.mpr ⟨h.nodup, List.pairwise_singleton _ _, ?_⟩
    intro x hx y hy heq
    rw [List.mem_singleton.mp hy] at heq
    exact hnew (heq ▸ hx)

/-! ## Where results are -/

/-- Where the bytes of a result are. -/
def place (t : BinTable) : Result → Exec Undefined (ℕ × ℕ)
  | .id i => t.range i
  | .range start stop => .ok (start, stop)

/-- Two results are the same id, or their bytes are in places that do not overlap. -/
def Apart (t : BinTable) (r r' : Result) : Prop :=
  (∃ i, r = .id i ∧ r' = .id i) ∨
    ∃ a b c d, t.place r = .ok (a, b) ∧ t.place r' = .ok (c, d) ∧ (b ≤ c ∨ d ≤ a)

/-- The bytes of an operation. -/
def Op.bytes : Op → List UInt8
  | .id bytes => bytes
  | .append bytes => bytes

/-- The result of an operation. -/
def Gives (buffer : List UInt8) (keys : List (List UInt8)) : Op → Result → Prop
  | .id bytes, r => bytes ∈ keys ∧ r = .id (keys.idxOf bytes + 1)
  | .append bytes, r => ∃ start, r = .range start (start + bytes.length) ∧ At buffer start bytes

/-- A result is about one of the first entries, or about bytes from an offset on. -/
def Fresh (t : BinTable) (count start : ℕ) (r : Result) : Prop :=
  (∃ k, k < count ∧ r = .id (k + 1)) ∨ ∃ a b, t.place r = .ok (a, b) ∧ start ≤ a

/-- A result is about an entry of a table, or about bytes behind those of all entries. -/
def Last (t : BinTable) (buffer : List UInt8) : Result → Prop
  | .id i => ∃ k, k < t.index.length ∧ i = k + 1
  | .range start stop => stop ≤ buffer.length ∧ ∀ e ∈ t.index, e.2 + e.1.len ≤ start

theorem Gives.grow {buffer : List UInt8} {keys : List (List UInt8)} {op : Op} {r : Result}
    (h : Gives buffer keys op r) (more : List UInt8) (new : List (List UInt8)) :
    Gives (buffer ++ more) (keys ++ new) op r := by
  cases op with
  | id bytes =>
    obtain ⟨hmem, rfl⟩ := h
    refine ⟨List.mem_append_left _ hmem, ?_⟩
    rw [List.idxOf_append_of_mem hmem]
  | append bytes =>
    obtain ⟨start, rfl, hat⟩ := h
    exact ⟨start, rfl, hat.grow more⟩

section Grown

variable {t t' : BinTable} {buffer buffer' : List UInt8} {keys keys' : List (List UInt8)}

/-- The range of an id is that of its entry. -/
theorem Ok.range_entry (h : Ok t buffer keys) {i : ℕ} {e : Blob × ℕ} (he : t.index[i]? = some e) :
    t.range (i + 1) = .ok (e.2, e.2 + e.1.len) := by
  have hlen := h.index.length_eq
  have hi := (List.getElem?_eq_some_iff.mp he).1
  obtain ⟨e', he', hstands, -⟩ := h.entry (List.getElem?_eq_getElem (hlen ▸ hi))
  obtain rfl := Option.some.inj (he.symm.trans he')
  rw [BinTable.range, Nat.add_sub_cancel, he]
  simp only [unwrap, ok_bind, hstands.bytes, hstands.len]
  rfl

/-- An entry of a table stays where it is. -/
theorem getElem?_grow (hle : t.index <+: t'.index) {i : ℕ} {e : Blob × ℕ}
    (he : t.index[i]? = some e) : t'.index[i]? = some e := by
  obtain ⟨more, hmore⟩ := hle
  rw [← hmore, List.getElem?_append_left (List.getElem?_eq_some_iff.mp he).1, he]

/-- What an operation returns is apart from what later ones return. -/
theorem apart_of_fresh (h : Ok t buffer keys) (h' : Ok t' buffer' keys')
    (hle : t.index <+: t'.index) {r r' : Result} (hlast : Last t buffer r)
    (hr : Fresh t' keys.length buffer.length r') : Apart t' r r' := by
  rw [← h.index.length_eq] at hr
  cases r with
  | range start stop =>
    obtain ⟨hstop, hbehind⟩ := hlast
    obtain ⟨k, hk, rfl⟩ | ⟨c, d, hplace, hc⟩ := hr
    · have he := List.getElem?_eq_getElem hk
      exact .inr ⟨start, stop, _, _, rfl, h'.range_entry (getElem?_grow hle he),
        .inr (hbehind _ (List.getElem_mem hk))⟩
    · exact .inr ⟨start, stop, c, d, rfl, hplace, .inl (Nat.le_trans hstop hc)⟩
  | id i =>
    obtain ⟨k, hk, rfl⟩ := hlast
    have he := List.getElem?_eq_getElem hk
    have hrange := h'.range_entry (getElem?_grow hle he)
    obtain ⟨k', hk', rfl⟩ | ⟨c, d, hplace, hc⟩ := hr
    · have he' := List.getElem?_eq_getElem hk'
      have hrange' := h'.range_entry (getElem?_grow hle he')
      obtain hlt | rfl | hlt := Nat.lt_trichotomy k k'
      · exact .inr ⟨_, _, _, _, hrange, hrange',
          .inl (List.pairwise_iff_getElem.mp h.order k k' hk hk' hlt)⟩
      · exact .inl ⟨_, rfl, rfl⟩
      · exact .inr ⟨_, _, _, _, hrange, hrange',
          .inr (List.pairwise_iff_getElem.mp h.order k' k hk' hk hlt)⟩
    · exact .inr ⟨_, _, c, d, hrange, hplace, .inl (Nat.le_trans (h.end_le (List.getElem_mem hk)) hc)⟩

end Grown

/-! ## Operations -/

/-- An id is one more than the place of its key. A key that is new goes behind all others. -/
theorem id_spec {t : BinTable} {buffer : List UInt8} {keys : List (List UInt8)}
    (h : Ok t buffer keys) (bytes : List UInt8) :
    (t.id bytes = abort ∧
        (2 ^ 62 ≤ buffer.length + bytes.length ∨ 2 ^ 32 - 2 ≤ keys.length + 1)) ∨
      ∃ i t' more new, t.id bytes = .ok (i, t') ∧ Ok t' (buffer ++ more) (keys ++ new) ∧
        t.index <+: t'.index ∧ more.length ≤ bytes.length ∧ new.length ≤ 1 ∧
        Gives (buffer ++ more) (keys ++ new) (.id bytes) (.id i) ∧
        ∀ k e, t.index.length ≤ k → t'.index[k]? = some e → buffer.length ≤ e.2 := by
  have hfind := findKey_eq (h.index.imp fun _ _ hx => hx.1) bytes 0
  unfold id
  rw [hfind, ok_bind]
  by_cases hmem : bytes ∈ keys
  · rw [if_pos hmem]
    have hlt := List.idxOf_lt_length_of_mem hmem
    dsimp only
    rw [Nat.zero_add, newId]
    split_ifs with hid
    · refine .inr ⟨_, t, [], [], rfl, ?_, List.prefix_rfl, Nat.zero_le _, Nat.zero_le _, ?_, ?_⟩
      · rwa [List.append_nil, List.append_nil]
      · rw [List.append_nil, List.append_nil]
        exact ⟨hmem, rfl⟩
      · intro k e hk he
        exact absurd (List.getElem?_eq_some_iff.mp he).1 (Nat.not_lt.mpr hk)
    · exact .inl ⟨rfl, .inr (by omega)⟩
  · rw [if_neg hmem]
    obtain ⟨hnone, hbig⟩ | ⟨segments, blob, hstore, hcontents, hblob, hkeep⟩ :=
      store_spec h.contents bytes
    · exact .inl ⟨by simp only [hnone]; rfl, .inl hbig⟩
    · have hentered := h.entered hcontents hblob hkeep hmem
      have hlen := h.index.length_eq
      have hidx : (keys ++ [bytes]).idxOf bytes = t.index.length := by
        rw [List.idxOf_append_of_notMem hmem, List.idxOf_cons_self, hlen, Nat.add_zero]
      simp only [hstore, ok_bind, newId]
      split_ifs with hid
      · refine .inr ⟨_, _, bytes, [bytes], rfl, hentered, List.prefix_append _ _, Nat.le_refl _,
          Nat.le_refl _, ⟨by simp, by rw [hidx]⟩, ?_⟩
        intro k e hk he
        rw [List.getElem?_append_right hk] at he
        obtain rfl := List.mem_singleton.mp (List.mem_of_getElem? he)
        exact Nat.le_of_eq h.len.symm
      · rw [hlen] at hid
        exact .inl ⟨rfl, .inr (by omega)⟩

/-- An append adds its bytes to the buffer and returns their range. -/
theorem append_spec {t : BinTable} {buffer : List UInt8} {keys : List (List UInt8)}
    (h : Ok t buffer keys) (bytes : List UInt8) :
    (t.append bytes = abort ∧ 2 ^ 62 ≤ buffer.length + bytes.length) ∨
      ∃ t', t.append bytes = .ok ((buffer.length, buffer.length + bytes.length), t') ∧
        Ok t' (buffer ++ bytes) keys ∧ t'.index = t.index := by
  unfold append
  obtain ⟨hnone, hbig⟩ | ⟨segments, blob, hstore, hcontents, -, hkeep⟩ :=
    store_spec h.contents bytes
  · exact .inl ⟨by simp only [hnone]; rfl, hbig⟩
  · refine .inr ⟨_, ?_, h.stored hcontents hkeep, rfl⟩
    simp only [hstore, ok_bind, h.len]
    rfl

/-- An operation adds bytes and keys, and panics only where there are too many. -/
theorem apply_spec {t : BinTable} {buffer : List UInt8} {keys : List (List UInt8)}
    (h : Ok t buffer keys) (op : Op) :
    (t.apply op = abort ∧
        (2 ^ 62 ≤ buffer.length + op.bytes.length ∨ 2 ^ 32 - 2 ≤ keys.length + 1)) ∨
      ∃ r t' more new, t.apply op = .ok (r, t') ∧ Ok t' (buffer ++ more) (keys ++ new) ∧
        t.index <+: t'.index ∧ more.length ≤ op.bytes.length ∧ new.length ≤ 1 ∧
        Gives (buffer ++ more) (keys ++ new) op r ∧ Last t' (buffer ++ more) r ∧
        (∀ a b, r = .range a b → a = buffer.length) ∧
        ∀ k e, t.index.length ≤ k → t'.index[k]? = some e → buffer.length ≤ e.2 := by
  cases op with
  | id bytes =>
    obtain ⟨hnone, hbig⟩ | ⟨i, t', more, new, hid, hok, hle, hmore, hnew, hgives, hfresh⟩ :=
      id_spec h bytes
    · exact .inl ⟨by rw [apply, hnone]; rfl, hbig⟩
    · refine .inr ⟨.id i, t', more, new, by rw [apply, hid]; rfl, hok, hle, hmore, hnew, hgives,
        ?_, nofun, hfresh⟩
      obtain ⟨hmem, heq⟩ := hgives
      rw [Result.id.injEq] at heq
      exact ⟨_, hok.index.length_eq.symm ▸ List.idxOf_lt_length_of_mem hmem, heq⟩
  | append bytes =>
    obtain ⟨hnone, hbig⟩ | ⟨t', happend, hok, hindex⟩ := append_spec h bytes
    · exact .inl ⟨by rw [apply, hnone]; rfl, .inl hbig⟩
    · refine .inr ⟨_, t', bytes, [], by rw [apply, happend]; rfl, ?_, hindex ▸ List.prefix_rfl,
        Nat.le_refl _, Nat.zero_le _, ⟨_, rfl, buffer, [], by rw [List.append_nil], rfl⟩, ⟨?_, ?_⟩,
        ?_, ?_⟩
      · rwa [List.append_nil]
      · exact Nat.le_of_eq List.length_append.symm
      · intro e he
        exact h.end_le (hindex ▸ he)
      · rintro a b ⟨⟩
        rfl
      · intro k e hk he
        rw [hindex] at he
        exact absurd (List.getElem?_eq_some_iff.mp he).1 (Nat.not_lt.mpr hk)

/-- Operations add bytes and keys, and what they return stays where it is. -/
theorem run_spec {t : BinTable} {buffer : List UInt8} {keys : List (List UInt8)}
    (h : Ok t buffer keys) (ops : List Op) :
    (t.run ops = abort ∧ (2 ^ 62 ≤ buffer.length + (ops.map (·.bytes.length)).sum ∨
        2 ^ 32 - 2 ≤ keys.length + ops.length)) ∨
      ∃ rs t' more new, t.run ops = .ok (rs, t') ∧ Ok t' (buffer ++ more) (keys ++ new) ∧
        t.index <+: t'.index ∧ List.Forall₂ (Gives (buffer ++ more) (keys ++ new)) ops rs ∧
        (∀ r ∈ rs, Fresh t' keys.length buffer.length r) ∧ rs.Pairwise (Apart t') := by
  induction ops generalizing t buffer keys with
  | nil =>
    refine .inr ⟨[], t, [], [], rfl, ?_, List.prefix_rfl, .nil, by simp, .nil⟩
    rwa [List.append_nil, List.append_nil]
  | cons op ops ih =>
    rw [run, List.map_cons, List.sum_cons, List.length_cons]
    obtain ⟨hnone, hbig⟩ | ⟨r, t₁, more, new, happly, hok, hle, hmore, hnew, hgives, hlast,
      hstart, hbehind⟩ := apply_spec h op
    · exact .inl ⟨by rw [hnone]; rfl, by omega⟩
    rw [happly, ok_bind]
    dsimp only
    obtain ⟨hnone, hbig⟩ | ⟨rs, t', more', new', hrun, hok', hle', hrs, hfresh, hapart⟩ := ih hok
    · simp only [List.length_append] at hbig
      exact .inl ⟨by rw [hnone]; rfl, by omega⟩
    -- An entry of the last table that the operation did not find is behind the old buffer.
    have hentry : ∀ k, k < t₁.index.length → Fresh t' keys.length buffer.length (.id (k + 1)) := by
      intro k hk
      rw [← h.index.length_eq]
      by_cases hlt : k < t.index.length
      · exact .inl ⟨k, hlt, rfl⟩
      · have he := List.getElem?_eq_getElem hk
        exact .inr ⟨_, _, hok'.range_entry (getElem?_grow hle' he), hbehind k _ (by omega) he⟩
    refine .inr ⟨r :: rs, t', more ++ more', new ++ new', by rw [hrun]; rfl, ?_, hle.trans hle',
      ?_, ?_, ?_⟩
    · rwa [← List.append_assoc, ← List.append_assoc]
    · rw [← List.append_assoc, ← List.append_assoc]
      exact .cons (hgives.grow more' new') hrs
    · intro r' hr'
      obtain rfl | hr' := List.mem_cons.mp hr'
      · cases r' with
        | range a b => exact .inr ⟨a, b, rfl, Nat.le_of_eq (hstart a b rfl).symm⟩
        | id i =>
          obtain ⟨k, hk, rfl⟩ := hlast
          exact hentry k hk
      · obtain ⟨k, hk, rfl⟩ | ⟨a, b, hplace, hc⟩ := hfresh r' hr'
        · exact hentry k (hok.index.length_eq ▸ hk)
        · rw [List.length_append] at hc
          exact .inr ⟨a, b, hplace, by omega⟩
    · exact .cons (fun r' hr' => apart_of_fresh hok hok' hle' hlast (hfresh r' hr')) hapart

/-- What an operation returned is about its bytes in a buffer. -/
def Answers (t : BinTable) (buffer : List UInt8) : Op → Result → Prop
  | .id bytes, .id i =>
    ∃ start, t.range i = .ok (start, start + bytes.length) ∧ At buffer start bytes
  | .append bytes, .range start stop => stop = start + bytes.length ∧ At buffer start bytes
  | _, _ => False

theorem Gives.answers {t : BinTable} {buffer : List UInt8} {keys : List (List UInt8)}
    (h : Ok t buffer keys) {op : Op} {r : Result} (hr : Gives buffer keys op r) :
    Answers t buffer op r := by
  cases op with
  | append bytes =>
    obtain ⟨start, rfl, hat⟩ := hr
    exact ⟨rfl, hat⟩
  | id bytes =>
    obtain ⟨hmem, rfl⟩ := hr
    have hlt := List.idxOf_lt_length_of_mem hmem
    have hkey : keys[keys.idxOf bytes]? = some bytes := by
      rw [List.getElem?_eq_getElem hlt, List.getElem_idxOf hlt]
    obtain ⟨e, he, hstands, hat⟩ := h.entry hkey
    refine ⟨e.2, ?_, hat⟩
    rw [h.range_entry he, hstands.len]

/-- Whatever is interned and appended in whatever order, each string has one id, the buffer of all
segments has the bytes of every string where its range says, and no two ranges overlap but those of
one id. No access is out of place on the way, and only what does not fit panics. -/
theorem run_interns (ops : List Op) :
    (new.run ops = abort ∧
        (2 ^ 62 ≤ (ops.map (·.bytes.length)).sum ∨ 2 ^ 32 - 2 ≤ ops.length)) ∨
      ∃ rs t buffer, new.run ops = .ok (rs, t) ∧ t.flatten = .ok buffer ∧
        List.Forall₂ (Answers t buffer) ops rs ∧
        (∀ (i j : ℕ) (x y : List UInt8) (m n : ℕ), ops[i]? = some (.id x) → ops[j]? = some (.id y) →
          rs[i]? = some (.id m) → rs[j]? = some (.id n) → (m = n ↔ x = y)) ∧
        rs.Pairwise (Apart t) := by
  obtain ⟨hnone, hbig⟩ | ⟨rs, t, buffer, keys, hrun, hok, -, hrs, -, hapart⟩ := run_spec ok_new ops
  · simp only [List.length_nil, Nat.zero_add] at hbig
    exact .inl ⟨hnone, hbig⟩
  · rw [List.nil_append, List.nil_append] at hrs hok
    refine .inr ⟨rs, t, buffer, hrun, flattenFrom_eq hok.contents,
      hrs.imp fun _ _ hr => hr.answers hok, ?_, hapart⟩
    have hid : ∀ (i : ℕ) (x : List UInt8) (m : ℕ), ops[i]? = some (.id x) →
        rs[i]? = some (.id m) → x ∈ keys ∧ m = keys.idxOf x + 1 := by
      intro i x m hop hr
      obtain ⟨hi, hop⟩ := List.getElem?_eq_some_iff.mp hop
      obtain ⟨hi', hr⟩ := List.getElem?_eq_some_iff.mp hr
      have hgives := hrs.get hi hi'
      simp only [List.get_eq_getElem, hop, hr] at hgives
      obtain ⟨hmem, heq⟩ := hgives
      exact ⟨hmem, Result.id.inj heq⟩
    intro i j x y m n hx hy hm hn
    obtain ⟨hmem, rfl⟩ := hid i x m hx hm
    obtain ⟨-, rfl⟩ := hid j y n hy hn
    rw [Nat.add_left_inj, List.idxOf_inj hmem]

end BinTable

end Dolang.Util
