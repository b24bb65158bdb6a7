import Sepol.NeverallowReport
import Sepol.NeverallowXperms
import Sepol.OptimizeDecision
import Sepol.HierarchyChild
import Sepol.ExpandTerule
import Sepol.ExpandAvrule
import Sepol.AvtabOldTable
import Sepol.RoleExpand
import Sepol.EnableAvrules
import Sepol.CopyAvruleImage
import Sepol.CilDenyRun
import Sepol.CilOrderedAll
import Sepol.CilSetEvaluation
import Sepol.CilConstraintRun
import Sepol.CilAvruleDenote
import Sepol.CilInheritanceBound
import Sepol.CondNormalize
import Sepol.CondCopyRules
import Sepol.CilParserTree
import Sepol.ModuleToCilBlocks
import Sepol.ModuleFileBlocks
import Sepol.XpermsPrint
import Sepol.CilPermxBitmap
import Sepol.KernelCatsRead
import Sepol.CilVerifyBounds
import Sepol.ContextString
import Sepol.Tokenize
import Sepol.LinkSafe
import Sepol.CondOptimize
import Sepol.CilSemanticLevel
import Sepol.CilContextLookup
import Sepol.CondPrintConf
import Sepol.AttrSetRun
import Sepol.ModulePackageRoundtrip
import Sepol.ComputeAvBounds
import Sepol.ComputeSid
import Sepol.ConvertContext
import Sepol.GenfsLookup
