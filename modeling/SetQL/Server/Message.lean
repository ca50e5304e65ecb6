import SetQL.Parser.Query
import SetQL.Query.RunQuery

/-!
# The answer to a message

`message_callback_func`: a message is parsed as a query and run, and the result is sent field by
field. The sends go to a connected client that takes all the bytes it is given.

## Main definitions

* `dbmsNetworkingSend`: the bytes of one send
* `sendColumn`, `sendResult`: the bytes sent for a column, and for a result
* `messageCallbackFunc`: the function
* `wireColumn`, `wireFormat`: all the fields of a column, and of a result

## Main results

* `dbmsNetworkingSend_eq_ok`: a send returns within its buffer
* `sendResult_eq_ok_iff`: a result is sent in full exactly when the sizes of its columns are
  below `2 ^ 31`
-/

namespace SetQL

/-- The block that holds given bytes. -/
def Block.ofBytes (bs : Bytes) : Block := ⟨bs.length, fun i => bs.getD i 0⟩

/-- `dbms_networking_send`: the `int` size becomes the `size_t` of the call that sends. -/
def dbmsNetworkingSend (buffer : Block) (size : ℤ) : C Bytes :=
  buffer.read 0 (size % 2 ^ 64).toNat

/-- A field of 8 bytes is sent from its address. -/
def sendField (n : ℕ) : C Bytes := dbmsNetworkingSend (.ofBytes (leBytes 8 n)) 8

/-- The body of the loop over the columns. -/
def sendColumn (column : ColumnData) : C Bytes := do
  let isString ← sendField column.isString
  let size ← sendField column.memorySize.toNat
  let data ← dbmsNetworkingSend column.data (toInt column.memorySize.toNat)
  return isString ++ size ++ data

/-- The sends of a result. -/
def sendResult (ret : QueryReturn) : C Bytes := do
  let columnCount ← sendField ret.columnCount
  let dataLength ← sendField ret.dataLength
  (List.range ret.columnCount).foldlM (fun sent i => do
    let column ← fetch ret.columns i
    let bytes ← sendColumn column
    return sent ++ bytes) (columnCount ++ dataLength)

/-- `message_callback_func`: its return value, and the bytes it sends. -/
def messageCallbackFunc (u : Uninitialized) (db : Database) (msg : Bytes) : C (ℤ × Bytes) := do
  match ← parseQuery msg with
  | .error _ => return (-1, [])
  | .ok q => do
    let ret ← dbRunQuery u db q
    let sent ← sendResult ret
    return (1, sent)

/-! ## The fields of a result -/

/-- The fields of a column: its kind, its size and that many bytes. -/
def wireColumn (column : ColumnData) : Bytes :=
  leBytes 8 column.isString ++ leBytes 8 column.memorySize.toNat ++
    column.data.slice 0 column.memorySize.toNat

/-- The fields of a result: the number of columns, the number of rows, and the columns. -/
def wireFormat (ret : QueryReturn) : Bytes :=
  leBytes 8 ret.columnCount ++ leBytes 8 ret.dataLength ++ ret.columns.flatMap wireColumn

section Send

variable {buffer : Block} {size : ℤ} {bs : Bytes} {column : ColumnData} {ret : QueryReturn} {n : ℕ}

theorem Block.slice_ofBytes (bs : Bytes) : (Block.ofBytes bs).slice 0 bs.length = bs := by
  refine List.ext_getElem (by simp) fun i hi hi' => ?_
  rw [Block.getElem_slice, Nat.zero_add]
  show bs.getD i 0 = bs[i]
  rw [List.getD_eq_getElem?_getD, List.getElem?_eq_getElem hi', Option.getD_some]

/-- A send returns within its buffer. -/
theorem dbmsNetworkingSend_eq_ok : dbmsNetworkingSend buffer size = .ok bs ↔
    (size % 2 ^ 64).toNat ≤ buffer.size ∧ bs = buffer.slice 0 (size % 2 ^ 64).toNat := by
  rw [dbmsNetworkingSend, Block.read_eq_ok, Nat.zero_add]
  refine and_congr_left fun _ => ⟨fun h => ?_, Or.inr⟩
  rcases h with h | h
  · rw [h]
    exact Nat.zero_le _
  · exact h

@[simp] theorem sendField_eq : sendField n = .ok (leBytes 8 n) := by
  have hslice := Block.slice_ofBytes (leBytes 8 n)
  rw [length_leBytes] at hslice
  exact dbmsNetworkingSend_eq_ok.mpr ⟨by simp [Block.ofBytes], hslice.symm⟩

theorem toInt_of_lt (h : n < 2 ^ 31) : toInt n = n := by
  rw [toInt, if_pos (by omega)]
  omega

/-- An `int` size is the size itself, or one that is smaller, or one past every buffer. -/
theorem toInt_cases (h : 2 ^ 31 ≤ n) :
    (toInt n % 2 ^ 64).toNat < n ∨ 2 ^ 63 ≤ (toInt n % 2 ^ 64).toNat := by
  unfold toInt
  split <;> omega

/-- No more is sent for a column than its fields, and as much only when its size is small. -/
theorem length_sendColumn (hsize : column.data.size < 2 ^ 63) (h : sendColumn column = .ok bs) :
    bs.length ≤ (wireColumn column).length ∧
      (bs.length = (wireColumn column).length →
        column.memorySize.toNat < 2 ^ 31) := by
  simp only [sendColumn, sendField_eq, ok_bind, bind_eq_ok, dbmsNetworkingSend_eq_ok, pure_eq_ok,
    Except.ok.injEq] at h
  obtain ⟨data, ⟨hle, rfl⟩, rfl⟩ := h
  simp only [wireColumn, List.length_append, length_leBytes, Block.length_slice]
  rcases Nat.lt_or_ge column.memorySize.toNat (2 ^ 31) with hlt | hge
  · have hsame : (toInt column.memorySize.toNat % 2 ^ 64).toNat = column.memorySize.toNat := by
      rw [toInt_of_lt hlt]
      omega
    rw [hsame]
    exact ⟨le_rfl, fun _ => hlt⟩
  · rcases toInt_cases hge with hcut | hout
    · exact ⟨by omega, fun heq => by omega⟩
    · omega

/-- A column of a small size is sent in full. -/
theorem sendColumn_of_lt (hlt : column.memorySize.toNat < 2 ^ 31)
    (hle : column.memorySize.toNat ≤ column.data.size) :
    sendColumn column = .ok (wireColumn column) := by
  have hsame : (toInt column.memorySize.toNat % 2 ^ 64).toNat = column.memorySize.toNat := by
    rw [toInt_of_lt hlt]
    omega
  simp only [sendColumn, sendField_eq, ok_bind,
    dbmsNetworkingSend_eq_ok.mpr ⟨by rw [hsame]; exact hle, rfl⟩, hsame, pure_eq_ok, wireColumn]

/-- No more is sent for columns than their fields, and as much only when their sizes are small. -/
theorem length_sendColumns {l : List ColumnData} {acc sent : Bytes}
    (hsize : ∀ column ∈ l, column.data.size < 2 ^ 63)
    (h : l.foldlM (fun sent column => do
      let bytes ← sendColumn column
      return sent ++ bytes) acc = .ok sent) :
    sent.length ≤ acc.length + (l.flatMap wireColumn).length ∧
      (sent.length = acc.length + (l.flatMap wireColumn).length →
        ∀ column ∈ l, column.memorySize.toNat < 2 ^ 31) := by
  induction l generalizing acc with
  | nil =>
    obtain rfl := Except.ok.inj h
    exact ⟨le_rfl, fun _ column hcolumn => absurd hcolumn List.not_mem_nil⟩
  | cons column l ih =>
    obtain ⟨acc', hstep, h⟩ := bind_eq_ok.mp h
    obtain ⟨bytes, hbytes, hacc⟩ := bind_eq_ok.mp hstep
    obtain rfl := Except.ok.inj hacc
    obtain ⟨hle, hfull⟩ := length_sendColumn (hsize column List.mem_cons_self) hbytes
    obtain ⟨hle', hfull'⟩ := ih (fun c hc => hsize c (List.mem_cons_of_mem _ hc)) h
    rw [List.length_append] at hle' hfull'
    rw [List.flatMap_cons, List.length_append]
    refine ⟨by omega, fun heq c hc => ?_⟩
    -- what one column is short of, the others cannot make up for
    rcases List.mem_cons.mp hc with rfl | hc
    · exact hfull (by omega)
    · exact hfull' (by omega) c hc

theorem sendColumns_of_lt {l : List ColumnData} {acc : Bytes}
    (hlt : ∀ column ∈ l, column.memorySize.toNat < 2 ^ 31)
    (hle : ∀ column ∈ l, column.memorySize.toNat ≤ column.data.size) :
    l.foldlM (fun sent column => do
      let bytes ← sendColumn column
      return sent ++ bytes) acc = .ok (acc ++ l.flatMap wireColumn) := by
  induction l generalizing acc with
  | nil => simp
  | cons column l ih =>
    rw [List.foldlM_cons, sendColumn_of_lt (hlt column List.mem_cons_self)
      (hle column List.mem_cons_self), ok_bind, pure_eq_ok, ok_bind,
      ih (fun c hc => hlt c (List.mem_cons_of_mem _ hc))
        (fun c hc => hle c (List.mem_cons_of_mem _ hc)), List.flatMap_cons, List.append_assoc]

/-- **A result is sent in full exactly when the sizes of its columns are below `2 ^ 31`.** -/
theorem sendResult_eq_ok_iff (hcount : ret.columnCount = ret.columns.length)
    (hle : ∀ column ∈ ret.columns, column.memorySize.toNat ≤ column.data.size)
    (hsize : ∀ column ∈ ret.columns, column.data.size < 2 ^ 63) :
    sendResult ret = .ok (wireFormat ret) ↔
      ∀ column ∈ ret.columns, column.memorySize.toNat < 2 ^ 31 := by
  rw [sendResult, sendField_eq, ok_bind, sendField_eq, ok_bind, hcount, foldlM_range_fetch]
  constructor
  · intro h
    refine (length_sendColumns hsize h).2 ?_
    rw [wireFormat, hcount, List.length_append]
  · intro hlt
    rw [sendColumns_of_lt hlt hle, wireFormat, hcount]

end Send

end SetQL
