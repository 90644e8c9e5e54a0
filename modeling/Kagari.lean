import Kagari.Types.InheritanceSound
import Kagari.Bytecode.AwaitSound
import Kagari.Mir.Rotation.Run
import Kagari.Mir.Verify.LivePoints
import Kagari.Runtime.DependenciesSound
import Kagari.Runtime.BorrowsSound
import Kagari.Runtime.IsolationSound
import Kagari.Syntax.LiteralSound
import Kagari.Mir.Dead.Sound
import Kagari.Mir.Safety
import Kagari.Runtime.KeysSound
import Kagari.Runtime.WakeSound
import Kagari.Runtime.DirectoryRuns
import Kagari.Source.LineIndex
import Kagari.Gc.RootsSound
import Kagari.Gc.Iter
import Kagari.Identity.Maps
import Kagari.Format.Layout
import Kagari.Hir.ConstBudget
import Kagari.Hir.ConstSound
import Kagari.Runtime.Sessions
import Kagari.Runtime.StringIter
import Kagari.Syntax.Lexical
import Kagari.Stdlib.ListPaths
import Kagari.Runtime.FieldsSound
import Kagari.Types.WireLimits
import Kagari.Mir.Operands
import Kagari.Hir.TypeWalks
import Kagari.Package.PathSound
import Kagari.Updates.Demands
