import SetQL.Server.Client
import SetQL.Server.Message

/-!
# The wire

What the client fetches of a result that is sent in full. Strings are read back, and an integer is
read back as the unsigned number of its 8 bytes. The size of a value is the size of its column over
the number of rows, so nothing can be fetched of a column without rows.

## Main definitions

* `Encodes rows column values`: a column of a result holds values
* `Carries ret values`: a result holds the values of all its columns
* `RoundTrips ret values`: the result is sent in full, and the client fetches its values

## Main results

* `fetchColumn_wireColumn`: what is fetched of a column
* `fetchResult_wireFormat`: what is fetched of a result
* `roundTrips_iff`: when a result is fetched as it is
-/

namespace SetQL

/-- The bytes of a string in UTF-8. -/
def utf8 (s : String) : Bytes := s.toByteArray.data.toList

/-- A column of a result holds values, one in each slot: a string before a zero byte, or the 8 bytes
of a signed integer. -/
def Encodes (rows : ℕ) (column : ColumnData) : Column → Prop
  | .strings l => column.isString = 1 ∧ column.memorySize.toNat = rows * 256 ∧ l.length = rows ∧
      ∀ (r : ℕ) s, l[r]? = some s → (utf8 s).length < 256 ∧
        cstr (column.data.slice (r * 256) 256) = utf8 s
  | .integers l => column.isString = 0 ∧ column.memorySize.toNat = rows * 8 ∧ l.length = rows ∧
      ∀ (r : ℕ) z, l[r]? = some z → (-2 ^ 63 ≤ z ∧ z < 2 ^ 63) ∧
        column.data.slice (r * 8) 8 = leBytes 8 (BitVec.ofInt 64 z).toNat

/-- A result holds the values of all its columns, in buffers that hold as many bytes as their sizes
say. -/
structure Carries (ret : QueryReturn) (values : List Column) : Prop where
  columnCount : ret.columnCount = ret.columns.length
  count_lt : ret.columnCount < 2 ^ 64
  length_lt : ret.dataLength < 2 ^ 64
  buffers : ∀ column ∈ ret.columns,
    column.memorySize.toNat ≤ column.data.size ∧ column.data.size < 2 ^ 63
  columns : List.Forall₂ (Encodes ret.dataLength) ret.columns values

/-- The result is sent in full, and the client fetches its values. -/
def RoundTrips (ret : QueryReturn) (values : List Column) : Prop :=
  ∃ stream, sendResult ret = .ok stream ∧ stream = wireFormat ret ∧
    fetchResult true stream = .ok (values, [])

/-- A column as it is fetched: its integers are unsigned. -/
def Column.fetched : Column → Column
  | .strings l => .strings l
  | .integers l => .integers (l.map (· % 2 ^ 64))

/-- No integer of a column is negative. -/
def Column.Unsigned : Column → Prop
  | .strings _ => True
  | .integers l => ∀ z ∈ l, 0 ≤ z

/-! ## One column -/

section Column

variable {rows : ℕ} {column : ColumnData} {values : Column} {rest data : Bytes} {s : String} {z : ℤ}

theorem Block.slice_add (b : Block) (a m n : ℕ) :
    b.slice a (m + n) = b.slice a m ++ b.slice (a + m) n := by
  rw [slice, ← List.range'_append_1, List.map_append]
  rfl

/-- The first bytes of a block, cut into slots. -/
theorem Block.slice_mul (b : Block) (n e : ℕ) :
    b.slice 0 (n * e) = (List.range n).flatMap fun r => b.slice (r * e) e := by
  induction n with
  | zero => simp
  | succ n ih =>
    rw [Nat.succ_mul, slice_add, ih, Nat.zero_add, List.range_succ, List.flatMap_append]
    simp

/-- A string is read back from its slot. -/
theorem readString_append (h : cstr data = utf8 s) (rest : Bytes) :
    readString data.length (data ++ rest) = .ok (s, rest) := by
  have hdecode : String.fromUTF8? (utf8 s).toByteArray = some s := by
    have hbytes : (utf8 s).toByteArray = s.toByteArray := by
      rw [utf8]
      apply ByteArray.ext
      simp
    rw [hbytes, String.fromUTF8?, dif_pos s.isValidUTF8]
    rfl
  rw [readString, recv_append, ok_bind]
  simp only [h, hdecode, pure_eq_ok]

/-- An integer is read back as an unsigned number. -/
theorem leNat_leBytes_ofInt (z : ℤ) :
    (leNat (leBytes 8 (BitVec.ofInt 64 z).toNat) : ℤ) = z % 2 ^ 64 := by
  have hlt : (BitVec.ofInt 64 z).toNat < 256 ^ 8 := (BitVec.ofInt 64 z).isLt
  rw [leNat_leBytes_of_lt hlt, BitVec.toNat_ofInt]
  omega

theorem map_range_getD {α : Type} (l : List α) (d : α) :
    (List.range l.length).map (fun r => l[r]?.getD d) = l := by
  refine List.ext_getElem (by simp) fun r hr hr' => ?_
  simp [hr']

/-- **What is fetched of a column** with rows. -/
theorem fetchColumn_wireColumn (hrows : 0 < rows) (h : Encodes rows column values)
    (rest : Bytes) : fetchColumn rows (wireColumn column ++ rest) = .ok (values.fetched, rest) := by
  rw [fetchColumn, wireColumn, List.append_assoc, List.append_assoc]
  cases values with
  | strings l =>
    obtain ⟨hstring, hsize, rfl, hvalue⟩ := h
    have hread : ∀ r ∈ List.range l.length, ∀ rest,
        readString 256 (column.data.slice (r * 256) 256 ++ rest) =
          .ok (l[r]?.getD "", rest) := by
      intro r hr rest
      have hr := List.mem_range.mp hr
      have hslot := readString_append (hvalue r _ (List.getElem?_eq_getElem hr)).2 rest
      rw [Block.length_slice] at hslot
      rw [hslot, List.getElem?_eq_getElem hr, Option.getD_some]
    have hmany := readMany_flatMap hread rest
    rw [List.length_range, map_range_getD] at hmany
    have hlt : l.length * 256 < 2 ^ 64 := hsize ▸ column.memorySize.isLt
    rw [hstring, readInt_leBytes (by decide), ok_bind]
    simp only [hsize, readInt_leBytes hlt, ok_bind, if_true, Block.slice_mul, readStringArray,
      quotientSize_mul hrows (show 256 < 2 ^ 53 by decide), hmany]
    rfl
  | integers l =>
    obtain ⟨hstring, hsize, rfl, hvalue⟩ := h
    have hread : ∀ r ∈ List.range l.length, ∀ rest,
        readInt 8 (column.data.slice (r * 8) 8 ++ rest) =
          .ok (leNat (column.data.slice (r * 8) 8), rest) := by
      intro r _ rest
      have hslot := readInt_append (column.data.slice (r * 8) 8) rest
      rwa [Block.length_slice] at hslot
    have hmany := readMany_flatMap hread rest
    have hvalues : ((List.range l.length).map fun r => leNat (column.data.slice (r * 8) 8)).map
        Nat.cast = l.map (· % 2 ^ 64) := by
      refine List.ext_getElem (by simp) fun r hr hr' => ?_
      have hlt : r < l.length := by simpa using hr'
      rw [List.getElem_map, List.getElem_map, List.getElem_range,
        (hvalue r _ (List.getElem?_eq_getElem hlt)).2, leNat_leBytes_ofInt, List.getElem_map]
    rw [List.length_range] at hmany
    have hlt : l.length * 8 < 2 ^ 64 := hsize ▸ column.memorySize.isLt
    rw [hstring, readInt_leBytes (by decide), ok_bind]
    simp only [hsize, readInt_leBytes hlt, ok_bind, zero_ne_one, if_false, Block.slice_mul,
      readIntArray, quotientSize_mul hrows (show 8 < 2 ^ 53 by decide), hmany, hvalues, pure_eq_ok,
      Column.fetched]

/-- Nothing is fetched of a column without rows. -/
theorem fetchColumn_zero (h : Encodes 0 column values) (rest : Bytes) :
    fetchColumn 0 (wireColumn column ++ rest) = .error .zeroDivisionError := by
  rw [fetchColumn, wireColumn, List.append_assoc, List.append_assoc]
  have hlt : column.isString < 2 ^ 64 := by
    cases values <;> rw [h.1] <;> decide
  rw [readInt_leBytes hlt, ok_bind]
  simp only [readInt_leBytes column.memorySize.isLt, ok_bind, readStringArray, readIntArray,
    quotientSize, if_true, error_bind]
  split <;> rfl

/-- A column is fetched as it is when none of its integers is negative. -/
theorem fetched_eq_self_iff (h : Encodes rows column values) :
    values.fetched = values ↔ values.Unsigned := by
  cases values with
  | strings l => exact iff_of_true rfl trivial
  | integers l =>
    obtain ⟨-, -, -, hvalue⟩ := h
    rw [Column.fetched, Column.Unsigned, Column.integers.injEq]
    constructor
    · intro heq z hz
      rw [← heq] at hz
      obtain ⟨w, -, rfl⟩ := List.mem_map.mp hz
      exact Int.emod_nonneg w (by decide)
    · intro hpos
      have hself : ∀ z ∈ l, z % 2 ^ 64 = z := by
        intro z hz
        obtain ⟨r, hr, rfl⟩ := List.getElem_of_mem hz
        obtain ⟨⟨-, hlt⟩, -⟩ := hvalue r _ (List.getElem?_eq_getElem hr)
        exact Int.emod_eq_of_lt (hpos _ hz) (by omega)
      rw [List.map_congr_left hself, List.map_id']

end Column

/-! ## A result -/

section Result

variable {ret : QueryReturn} {values : List Column}

/-- **What is fetched of a result** with rows. -/
theorem fetchResult_wireFormat (h : Carries ret values) (hrows : 0 < ret.dataLength) :
    fetchResult true (wireFormat ret) = .ok (values.map Column.fetched, []) := by
  have hmany : ∀ (columns : List ColumnData) values,
      List.Forall₂ (Encodes ret.dataLength) columns values →
      readMany (fetchColumn ret.dataLength) columns.length (columns.flatMap wireColumn) =
        .ok (values.map Column.fetched, []) := by
    intro columns values hall
    induction hall with
    | nil => rfl
    | @cons column value columns values henc _ ih =>
      rw [List.length_cons, readMany, List.flatMap_cons, fetchColumn_wireColumn hrows henc, ok_bind]
      simp only [ih, ok_bind, pure_eq_ok, List.map_cons]
  rw [fetchResult, if_pos rfl, wireFormat, List.append_assoc, readInt_leBytes h.count_lt, ok_bind]
  simp only [readInt_leBytes h.length_lt, ok_bind, h.columnCount]
  exact hmany _ _ h.columns

/-- Nothing is fetched of a result with columns and without rows. -/
theorem fetchResult_of_no_rows (h : Carries ret values) (hrows : ret.dataLength = 0)
    (hvalues : values ≠ []) :
    fetchResult true (wireFormat ret) = .error .zeroDivisionError := by
  have hcolumns := h.columns
  rw [fetchResult, if_pos rfl, wireFormat, List.append_assoc, readInt_leBytes h.count_lt, ok_bind]
  simp only [readInt_leBytes h.length_lt, ok_bind, h.columnCount]
  cases hc : ret.columns with
  | nil =>
    rw [hc] at hcolumns
    cases hcolumns
    exact absurd rfl hvalues
  | cons column columns =>
    rw [hc, hrows] at hcolumns
    cases hcolumns with
    | cons henc _ =>
      rw [List.length_cons, readMany, List.flatMap_cons, hrows, fetchColumn_zero henc]
      rfl

theorem fetched_map_eq_self_iff (h : Carries ret values) :
    values.map Column.fetched = values ↔ ∀ value ∈ values, value.Unsigned := by
  have hall := h.columns
  clear h
  generalize ret.columns = columns at hall
  induction hall with
  | nil => simp
  | cons henc _ ih =>
    rw [List.map_cons, List.cons.injEq, List.forall_mem_cons]
    exact and_congr (fetched_eq_self_iff henc) ih

/-- **A result is fetched as it is exactly when** it has rows or no columns, none of its integers is
negative, and no column takes `2 ^ 31` bytes. -/
theorem roundTrips_iff (h : Carries ret values) :
    RoundTrips ret values ↔ (0 < ret.dataLength ∨ values = []) ∧
      (∀ value ∈ values, value.Unsigned) ∧
        ∀ column ∈ ret.columns, column.memorySize.toNat < 2 ^ 31 := by
  have hsent := sendResult_eq_ok_iff h.columnCount (fun c hc => (h.buffers c hc).1)
    fun c hc => (h.buffers c hc).2
  rw [← hsent, RoundTrips]
  constructor
  · rintro ⟨stream, hsend, rfl, hfetch⟩
    by_cases hrows : 0 < ret.dataLength
    · rw [fetchResult_wireFormat h hrows, Except.ok.injEq, Prod.mk.injEq] at hfetch
      exact ⟨Or.inl hrows, (fetched_map_eq_self_iff h).mp hfetch.1, hsend⟩
    · by_cases hvalues : values = []
      · exact ⟨Or.inr hvalues, by simp [hvalues], hsend⟩
      · rw [fetchResult_of_no_rows h (Nat.eq_zero_of_not_pos hrows) hvalues] at hfetch
        cases hfetch
  · rintro ⟨hrows | rfl, hunsigned, hsend⟩
    · refine ⟨_, hsend, rfl, ?_⟩
      rw [fetchResult_wireFormat h hrows, (fetched_map_eq_self_iff h).mpr hunsigned]
    · refine ⟨_, hsend, rfl, ?_⟩
      have hnil : ret.columns = [] := List.forall₂_nil_right_iff.mp h.columns
      rw [fetchResult, if_pos rfl, wireFormat, List.append_assoc, readInt_leBytes h.count_lt,
        ok_bind]
      simp only [readInt_leBytes h.length_lt, ok_bind, h.columnCount, hnil]
      rfl

/-- A result of one integer. -/
def integerResult (z : ℤ) : QueryReturn :=
  ⟨1, [⟨0, .ofBytes (leBytes 8 (BitVec.ofInt 64 z).toNat), 8⟩], 1⟩

theorem carries_integerResult {z : ℤ} (hlo : -2 ^ 63 ≤ z) (hhi : z < 2 ^ 63) :
    Carries (integerResult z) [.integers [z]] where
  columnCount := rfl
  count_lt := show 1 < 2 ^ 64 by decide
  length_lt := show 1 < 2 ^ 64 by decide
  buffers := by
    intro column hcolumn
    rw [List.mem_singleton.mp hcolumn]
    simp [Block.ofBytes]
  columns := by
    refine .cons ⟨rfl, rfl, rfl, fun r w hw => ?_⟩ .nil
    obtain ⟨hr, rfl⟩ := List.getElem?_eq_some_iff.mp hw
    obtain rfl : r = 0 := Nat.lt_one_iff.mp hr
    have hslot := Block.slice_ofBytes (leBytes 8 (BitVec.ofInt 64 z).toNat)
    rw [length_leBytes] at hslot
    exact ⟨⟨hlo, hhi⟩, hslot⟩

/-- A result of two rows: names and ages. -/
def peopleResult : QueryReturn :=
  ⟨2, [⟨1, .ofBytes (lit "Ann" ++ List.replicate 253 0 ++ lit "Bo" ++ List.replicate 254 0), 512⟩,
    ⟨0, .ofBytes (leBytes 8 30 ++ leBytes 8 41), 16⟩], 2⟩

theorem carries_peopleResult :
    Carries peopleResult [.strings ["Ann", "Bo"], .integers [30, 41]] where
  columnCount := rfl
  count_lt := show 2 < 2 ^ 64 by decide
  length_lt := show 2 < 2 ^ 64 by decide
  buffers := by decide +kernel
  columns := by
    refine .cons ⟨rfl, rfl, rfl, fun r s hs => ?_⟩
      (.cons ⟨rfl, rfl, rfl, fun r z hz => ?_⟩ .nil)
    · obtain ⟨hr, rfl⟩ := List.getElem?_eq_some_iff.mp hs
      have hslots : ∀ r : Fin 2, (utf8 ["Ann", "Bo"][r]).length < 256 ∧
          cstr ((Block.ofBytes (lit "Ann" ++ List.replicate 253 0 ++ lit "Bo" ++
            List.replicate 254 0)).slice (r * 256) 256) = utf8 ["Ann", "Bo"][r] := by
        decide
      exact hslots ⟨r, hr⟩
    · obtain ⟨hr, rfl⟩ := List.getElem?_eq_some_iff.mp hz
      have hslots : ∀ r : Fin 2, (-2 ^ 63 ≤ [(30 : ℤ), 41][r] ∧ [(30 : ℤ), 41][r] < 2 ^ 63) ∧
          (Block.ofBytes (leBytes 8 30 ++ leBytes 8 41)).slice (r * 8) 8 =
            leBytes 8 (BitVec.ofInt 64 [(30 : ℤ), 41][r]).toNat := by
        decide
      exact hslots ⟨r, hr⟩

theorem roundTrips_iff_single :
    RoundTrips peopleResult [.strings ["Ann", "Bo"], .integers [30, 41]] := by
  refine (roundTrips_iff carries_peopleResult).mpr ⟨Or.inl (by decide), ?_, by decide⟩
  simp [Column.Unsigned]

/-- A negative integer is fetched as another number. -/
theorem not_roundTrips_negative : Carries (integerResult (-1)) [.integers [-1]] ∧
    ¬ RoundTrips (integerResult (-1)) [.integers [-1]] := by
  have hcarries : Carries (integerResult (-1)) [.integers [-1]] :=
    carries_integerResult (by decide) (by decide)
  refine ⟨hcarries, ?_⟩
  rintro ⟨stream, -, rfl, hfetch⟩
  rw [fetchResult_wireFormat hcarries (by decide)] at hfetch
  exact absurd hfetch (by decide)

end Result

end SetQL
