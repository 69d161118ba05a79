import Tendra.Proofs.Int64Div
import Tendra.Proofs.Bounds
import Tendra.Proofs.Shifts
import Tendra.Proofs.Sid.Special
import Tendra.Proofs.Sid.Cycles
import Tendra.Proofs.Sid.Check
import Tendra.Proofs.Sid.Factor
import Tendra.Proofs.Tdfc.Convert
import Tendra.Proofs.Lexi.PrePass
import Tendra.Proofs.Tld.Resolve
import Tendra.Proofs.Overflow
import Tendra.Proofs.FoldShift
import Tendra.Proofs.CommAss
import Tendra.Proofs.Tdfc.Mangle
import Tendra.Proofs.Tdfc.Unmangle
import Tendra.Proofs.Int64Shift
import Tendra.Proofs.FltInteger
import Tendra.Proofs.FltLiteral
import Tendra.Proofs.Const.SafeEval
import Tendra.Proofs.Trans.BackEnds
import Tendra.Proofs.Tld.NameTable
import Tendra.Proofs.Trans.MoveCont
import Tendra.Proofs.Trans.CaseTag
import Tendra.Proofs.Trans.Shift64
import Tendra.Proofs.Trans.LongcMult
import Tendra.Proofs.Trans.CastOut
import Tendra.Proofs.Tld.Usage
import Tendra.Proofs.Tld.RenameString
import Tendra.Proofs.ReadPast
import Tendra.Proofs.Lexi.Group
import Tendra.Proofs.Unroll.Same
import Tendra.Proofs.Lexi.Buffer
import Tendra.Proofs.Tdfc.Quote
import Tendra.Proofs.Tdfc.LiteralExp
import Tendra.Proofs.Tdfc.LiteralType
import Tendra.Proofs.Simplify
import Tendra.Proofs.FltClosed
import Tendra.Proofs.CaseItem
import Tendra.Proofs.Trans.Lines
import Tendra.Proofs.Promote
import Tendra.Proofs.Tld.Producers
import Tendra.Proofs.Unwind
