import Aomp.Hostexec.BufferLayout
import Aomp.Hostexec.Queues
import Aomp.Hostexec.RemoteCalls
import Aomp.Hostexec.ServiceFrame
import Aomp.Hostexec.NvptxContract
import Aomp.Hostexec.Shutdown
import Aomp.Arguments.StringForms
import Aomp.Arguments.VarArgs
import Aomp.Cloning.OrdinaryLines
import Aomp.Fortran.ArgumentArray
import Aomp.Fortran.DirectCalls
import Aomp.Fortran.ListLifetime
import Aomp.Fortran.NumericOutput
import Aomp.Fortran.Statements
import Aomp.Modfile.ModChksum
import Aomp.Patches.PatchRepo
import Aomp.Sanitizer.LoadedObjects
import Aomp.Testing.ConformanceRecords
import Aomp.Testing.LLNLRecords
import Aomp.Testing.RunVerdict
import Aomp.Testing.SmokeAgreement
import Aomp.Xteam.FastSum
import Aomp.Xteam.Int64Reductions
import Aomp.Xteam.IntraTeam
import Aomp.Xteam.Outcomes
import Aomp.Xteam.Simulated
import Aomp.Fortran.Programs
