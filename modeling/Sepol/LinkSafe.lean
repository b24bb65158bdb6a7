import Sepol.Lib.Guarded
import Sepol.LinkAborts

/-!
# When the linker is safe

The maps of a module have an entry for each value that the module counts.  The own tables of a policy are validated,
but of a declaration only the values of its symbols are, and of sensitivities only those with MLS; so a set or bounds
of a declaration may lead behind a map.  When copying a declaration fails, the new one is destroyed twice.  A run that
avoids both and fails no assertion is safe.
-/

namespace Sepol

open Outcome CallRun

variable {α : Type} {rules : LinkRules} {st st' : LinkState} {policy base : LinkPolicy} {mods : List LinkPolicy}

/-! ### Lookups and insertions -/

end Sepol
