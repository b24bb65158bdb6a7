import Sepol.ConstraintDenote
import Sepol.MlsGrammar
import Sepol.PolicydbIndex
import Sepol.SidReuse

/-!
# Contexts across a policy load

A load converts the contexts of the SID table by name: it looks the names that the values have in the old policy up in
the new one.  A name may be an alias there, of a type, a sensitivity or a category; then the context gets the value of
the symbol it is an alias of, and with it another name.  Apart from that the names stay, and the context is valid in
the new policy.  A new policy without MLS may have aliases of sensitivities that it does not have.
-/

namespace Sepol

namespace ReadPolicydb

variable (p : ReadPolicydb)

end ReadPolicydb

variable {oldp newp : Policydb} {p : ReadPolicydb}

/-! ### Looking names up -/

variable {readTables : PolicydbHeader → List Byte → Option ReadPolicydb} {srv srv' : SecurityServer}
  {data : List Byte}
  {mem : SecurityId → Bool} {policydb : Policydb}

end Sepol
