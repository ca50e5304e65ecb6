import SetQL.Query.SetOperation

/-!
# Running a query

`db_run_query`: the set operation is evaluated, one buffer is allocated for each requested
column, and for every bit of the result, in the order of the bits, one row is copied into all
columns.

## Main definitions

* `Query`, `ColumnData`, `QueryReturn`: a query and its result
* `Uninitialized`: the contents of memory that is used before it is written
* `dbRunQuery`: the function
* `Bitset.ones`: the indices of the 1 bits, in order

## Main results

* `foldlM_bits`: the loop over words and bits is a loop over the 1 bits
* `dataLength_dbRunQuery`: a result has one row for each 1 bit
-/

namespace SetQL

/-- A query. -/
structure Query where
  columnNames : List Bytes
  op : SetOp
  deriving DecidableEq, Repr

/-- A column of a result. -/
structure ColumnData where
  isString : ℕ
  data : Block
  memorySize : BitVec 64

/-- The result of a query. -/
structure QueryReturn where
  dataLength : ℕ
  columns : List ColumnData
  columnCount : ℕ

/-- The contents of memory that a query uses before it is written: the `memorySize` of each
column, and the bytes of its buffer. -/
structure Uninitialized where
  memorySize : ℕ → BitVec 64
  bytes : ℕ → ℕ → UInt8

/-- The size of the values of a type in the buffer of a column. -/
def elementSize (type : AttrType) : ℕ := if type = .string then dbMaxStringLength else 8

/-- The buffer of column `columnIndex`: string buffers are not cleared. -/
def newColumn (u : Uninitialized) (keyCount columnIndex : ℕ) (type : AttrType) : ColumnData :=
  if type = .string then
    ⟨1, ⟨keyCount * dbMaxStringLength, u.bytes columnIndex⟩, u.memorySize columnIndex⟩
  else ⟨0, Block.zeroed (keyCount * 8), u.memorySize columnIndex⟩

/-- One column is looked up: its table goes to `attributeTables`, which has one entry for each
attribute of the database. -/
def openColumn (u : Uninitialized) (db : Database) (columnNames : List Bytes)
    (state : List ℕ × List ColumnData) (columnIndex : ℕ) : C (List ℕ × List ColumnData) := do
  let name ← fetch columnNames columnIndex
  match stSearch db.attrNamesTable name with
  | none => .error .nullDeref
  | some tb => do
    let attributeTables ← store state.1 columnIndex tb.index
    let attr ← fetch db.attributes tb.index
    return (attributeTables, state.2 ++ [newColumn u db.keyCount columnIndex attr.type])

/-- The value of one key is copied into row `row` of one column. -/
def copyValue (db : Database) (attributeTables : List ℕ) (row keyIndex : ℕ)
    (columns : List ColumnData) (col : ℕ) : C (List ColumnData) := do
  let table ← fetch attributeTables col
  let attr ← fetch db.attributes table
  let column ← fetch columns col
  let size := elementSize attr.type
  let value ← attr.data.read (keyIndex * size) size
  let data ← column.data.write (row * size) value
  store columns col { column with data, memorySize := column.memorySize + BitVec.ofNat 64 size }

/-- One row is copied into all columns. -/
def copyRow (db : Database) (attributeTables : List ℕ) (qr : QueryReturn) (keyIndex : ℕ) :
    C QueryReturn := do
  let columns ← (List.range qr.columnCount).foldlM
    (copyValue db attributeTables qr.dataLength keyIndex) qr.columns
  return { qr with columns, dataLength := qr.dataLength + 1 }

/-- The loop over the bits of one word. -/
def foldlWord {σ : Type} (bs : Bitset) (f : σ → ℕ → C σ) (s : σ) (intIndex : ℕ) : C σ := do
  let ll ← fetch bs.bits intIndex
  (List.range integerBitSize).foldlM (fun s byteIndex =>
    let bit := ll >>> byteIndex
    if bit &&& 1 = 1 then f s (intIndex * integerBitSize + byteIndex) else .ok s) s

/-- The loop over the words of a bitset and the bits of each word. -/
def foldlBits {σ : Type} (bs : Bitset) (f : σ → ℕ → C σ) (s : σ) : C σ :=
  (List.range bs.integerCount).foldlM (foldlWord bs f) s

/-- The result of a query. The array `attributeTables` has a positive size. -/
def dbRunQuery (u : Uninitialized) (db : Database) (q : Query) : C QueryReturn := do
  let sor ← dbRunSetOperation db q.op
  if db.attrCount = 0 then .error .undefined
  else do
    let (attributeTables, columns) ← (List.range q.columnNames.length).foldlM
      (openColumn u db q.columnNames) (List.replicate db.attrCount 0, [])
    foldlBits sor.bs (copyRow db attributeTables) ⟨0, columns, q.columnNames.length⟩

/-! ## The bits of a bitset -/

/-- The indices of the 1 bits, in order. -/
def Bitset.ones (b : Bitset) : List ℕ := (List.range (64 * b.integerCount)).filter b.bit

namespace Bitset

variable {b : Bitset} {i : ℕ}

theorem mem_ones : i ∈ b.ones ↔ b.bit i = true := by
  rw [ones, List.mem_filter, List.mem_range, and_iff_right_iff_imp]
  intro h
  by_contra hi
  rw [bit_of_le (Nat.not_lt.mp hi)] at h
  exact absurd h (by decide)

theorem sorted_ones (b : Bitset) : b.ones.Pairwise (· < ·) :=
  List.Pairwise.filter _ List.pairwise_lt_range

theorem nodup_ones (b : Bitset) : b.ones.Nodup := (sorted_ones b).imp Nat.ne_of_lt

/-- Bitsets whose bits are indices below `n` have at most `n` of them. -/
theorem length_ones_le {n : ℕ} (h : ∀ i, b.bit i = true → i < n) : b.ones.length ≤ n := by
  have hsub : b.ones ⊆ List.range n := fun i hi => List.mem_range.mpr (h i (mem_ones.mp hi))
  simpa using (nodup_ones b).length_le_of_subset hsub

end Bitset

theorem shiftRight_and_one (w : Word) (j : ℕ) : w >>> j &&& 1 = 1 ↔ w.getLsbD j = true := by
  constructor
  · intro h
    have := congrArg (fun v : Word => v.getLsbD 0) h
    simpa using this
  · intro h
    ext i hi
    rcases Nat.eq_zero_or_pos i with rfl | hpos
    · simpa using h
    · simp [BitVec.getElem_one, hpos.ne']

section Loops

variable {σ : Type} {b : Bitset} {n : ℕ}

theorem foldlWord_eq (f : σ → ℕ → C σ) (s : σ) (hn : n < b.bits.length) :
    foldlWord b f s n =
      (((List.range 64).map (64 * n + ·)).filter b.bit).foldlM f s := by
  have hbit : ∀ j < 64, b.bit (64 * n + j) = (b.bits[n]).getLsbD j := fun j hj => by
    rw [Bitset.bit_eq, show (64 * n + j) / 64 = n by omega, show (64 * n + j) % 64 = j by omega,
      List.getElem?_eq_getElem hn, Option.getD_some]
  rw [foldlWord, fetch_of_lt hn, ok_bind, List.foldlM_filter, List.foldlM_map]
  refine foldlM_congr fun t j hj => ?_
  have hj := List.mem_range.mp hj
  simp only [hbit j hj, shiftRight_and_one, integerBitSize, Nat.mul_comm n 64, pure_eq_ok]

/-- **The loop over words and bits is a loop over the 1 bits.** -/
theorem foldlM_bits (b : Bitset) (f : σ → ℕ → C σ) (s : σ) :
    foldlBits b f s = b.ones.foldlM f s := by
  suffices h : ∀ n ≤ b.integerCount, (List.range n).foldlM (foldlWord b f) s =
      ((List.range (64 * n)).filter b.bit).foldlM f s from h _ le_rfl
  intro n hn
  induction n with
  | zero => rfl
  | succ n ih =>
    rw [List.range_succ, List.foldlM_append, ih (by omega), Nat.mul_succ, List.range_add,
      List.filter_append, List.foldlM_append]
    congr 1
    funext t
    rw [List.foldlM_cons, foldlWord_eq f t hn]
    simp

end Loops

/-- **A result has one row for each 1 bit.** -/
theorem dataLength_dbRunQuery {u : Uninitialized} {db : Database} {q : Query} {qr : QueryReturn}
    (h : dbRunQuery u db q = .ok qr) :
    ∃ r, dbRunSetOperation db q.op = .ok r ∧ qr.dataLength = r.bs.ones.length := by
  obtain ⟨r, hr, h⟩ := bind_eq_ok.mp h
  refine ⟨r, hr, ?_⟩
  split_ifs at h
  obtain ⟨⟨attributeTables, columns⟩, -, h⟩ := bind_eq_ok.mp h
  change foldlBits _ _ _ = _ at h
  rw [foldlM_bits] at h
  refine foldlM_simulation (R := fun rows qr => qr.dataLength = rows.length) rfl ?_ h
  intro rows k qr qr' hrows hstep
  obtain ⟨columns', -, hstep⟩ := bind_eq_ok.mp hstep
  obtain rfl := Except.ok.inj hstep
  rw [List.length_append, List.length_singleton, hrows]

end SetQL
