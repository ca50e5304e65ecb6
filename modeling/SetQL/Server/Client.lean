import SetQL.Base.Bytes
import SetQL.Base.DoubleFloat

/-!
# The client

`dbms_communicator.py`: the client reads the number of columns, the number of rows, and each column
by the size that it was sent with. Each call of `recv` returns exactly the bytes it asks for.

## Main definitions

* `Halt`: how the client ends without a result
* `Column`: a column as the client returns it
* `readInt`, `readString`, `readIntArray`, `readStringArray`, `fetchResult`: the functions, each
  with the rest of the stream

## Main results

* `readMany_flatMap`: values are read one after the other
-/

namespace SetQL

/-- How the client ends without a result: by an exception, or by a stream that is too short. -/
inductive Halt
  | zeroDivisionError
  | unicodeDecodeError
  | endOfStream
  deriving DecidableEq, Repr

/-- A column as the client returns it. -/
inductive Column
  | strings (l : List String)
  | integers (l : List ℤ)
  deriving DecidableEq, Repr

/-- `recv`, which returns exactly the bytes it asks for. -/
def recv (size : ℕ) (stream : Bytes) : Except Halt (Bytes × Bytes) :=
  if size ≤ stream.length then .ok (stream.take size, stream.drop size) else .error .endOfStream

/-- `read_int`. -/
def readInt (size : ℕ) (stream : Bytes) : Except Halt (ℕ × Bytes) := do
  let (data, stream) ← recv size stream
  return (leNat data, stream)

/-- `read_string`: the bytes before the first zero byte are decoded. -/
def readString (size : ℕ) (stream : Bytes) : Except Halt (String × Bytes) := do
  let (data, stream) ← recv size stream
  match String.fromUTF8? (cstr data).toByteArray with
  | some string => return (string, stream)
  | none => .error .unicodeDecodeError

/-- `int(size / count)`: the quotient is a float, and its fraction is cut off. -/
def quotientSize (size count : ℕ) : Except Halt ℕ :=
  if count = 0 then .error .zeroDivisionError else .ok ⌊roundDouble (size / count)⌋₊

/-- The values of a loop that reads `count` of them. -/
def readMany {α : Type} (read : Bytes → Except Halt (α × Bytes)) :
    ℕ → Bytes → Except Halt (List α × Bytes)
  | 0, stream => .ok ([], stream)
  | count + 1, stream => do
    let (a, stream) ← read stream
    let (l, stream) ← readMany read count stream
    return (a :: l, stream)

/-- `read_int_array`. -/
def readIntArray (size count : ℕ) (stream : Bytes) : Except Halt (List ℕ × Bytes) := do
  let eSize ← quotientSize size count
  readMany (readInt eSize) count stream

/-- `read_string_array`. -/
def readStringArray (size count : ℕ) (stream : Bytes) : Except Halt (List String × Bytes) := do
  let eSize ← quotientSize size count
  readMany (readString eSize) count stream

/-- The body of the loop over the columns. -/
def fetchColumn (length : ℕ) (stream : Bytes) : Except Halt (Column × Bytes) := do
  let (dtype, stream) ← readInt 8 stream
  let (dsize, stream) ← readInt 8 stream
  if dtype = 1 then do
    let (l, stream) ← readStringArray dsize length stream
    return (.strings l, stream)
  else do
    let (l, stream) ← readIntArray dsize length stream
    return (.integers (l.map Nat.cast), stream)

/-- `fetch_result`; without a stream that is ready there are no columns. -/
def fetchResult (ready : Bool) (stream : Bytes) : Except Halt (List Column × Bytes) :=
  if ready then do
    let (columns, stream) ← readInt 8 stream
    let (length, stream) ← readInt 8 stream
    readMany (fetchColumn length) columns stream
  else .ok ([], stream)

/-! ## What is read -/

section Read

variable {α : Type} {read : Bytes → Except Halt (α × Bytes)} {stream rest : Bytes}

theorem recv_append (data rest : Bytes) : recv data.length (data ++ rest) = .ok (data, rest) := by
  simp [recv]

theorem readInt_append (data rest : Bytes) :
    readInt data.length (data ++ rest) = .ok (leNat data, rest) := by
  rw [readInt, recv_append]
  rfl

/-- A field of 8 bytes is read back. -/
theorem readInt_leBytes {n : ℕ} (h : n < 2 ^ 64) (rest : Bytes) :
    readInt 8 (leBytes 8 n ++ rest) = .ok (n, rest) := by
  have hread := readInt_append (leBytes 8 n) rest
  rwa [length_leBytes, leNat_leBytes_of_lt h] at hread

/-- The quotient of a multiple is exact. -/
theorem quotientSize_mul {count e : ℕ} (hcount : 0 < count) (he : e < 2 ^ 53) :
    quotientSize (count * e) count = .ok e := by
  have hexact : ((count * e : ℕ) : ℚ) / count = e := by
    push_cast
    field_simp
  rw [quotientSize, if_neg hcount.ne', hexact, roundDouble_natCast he, Nat.floor_natCast]

/-- Values are read one after the other. -/
theorem readMany_flatMap {β : Type} {l : List β} {encode : β → Bytes} {value : β → α}
    (h : ∀ b ∈ l, ∀ rest, read (encode b ++ rest) = .ok (value b, rest)) (rest : Bytes) :
    readMany read l.length (l.flatMap encode ++ rest) = .ok (l.map value, rest) := by
  induction l with
  | nil => rfl
  | cons b l ih =>
    rw [List.length_cons, readMany, List.flatMap_cons, List.append_assoc,
      h b List.mem_cons_self, ok_bind]
    simp only [ih fun c hc => h c (List.mem_cons_of_mem _ hc), ok_bind, pure_eq_ok, List.map_cons]

end Read

end SetQL
