import Itaruby.Library.Brackets
import Itaruby.Library.EditDistance
import Itaruby.Library.Fueled
import Itaruby.Library.Linearization
import Itaruby.Library.Substrings
import Itaruby.Ruby.Constants
import Itaruby.Ruby.Mixins
import Itaruby.Index.Constants
import Itaruby.Index.Termination
import Itaruby.Index.Fixpoint
import Itaruby.Index.ConstExists
import Itaruby.Index.ConstResolution
import Itaruby.Index.Inheritance
import Itaruby.Index.ClassObject
import Itaruby.Index.Dispatch
import Itaruby.Index.SuperSlots
import Itaruby.Index.ObjectSurface
import Itaruby.Walker.Growth
import Itaruby.Walker.Openness
import Itaruby.Walker.Constants
import Itaruby.Walker.Methods
import Itaruby.Syntax.Positions
import Itaruby.Check.Narrowing
import Itaruby.Check.CoreReturns
import Itaruby.Check.SorbetSig
import Itaruby.Check.SorbetGrammar
import Itaruby.Check.SigArguments
import Itaruby.Check.Navigation
import Itaruby.Check.CoveredLocals
import Itaruby.Check.Constraints
import Itaruby.Check.Census
import Itaruby.Check.OperandLocals
import Itaruby.Check.SafeNavigation
import Itaruby.Server.ProjectFiles
import Itaruby.Server.Closing
import Itaruby.Server.OneSource
import Itaruby.Server.Cancels
import Itaruby.Server.FileUris
import Itaruby.Command.GemCoverage
import Itaruby.Command.IgnoreEntries
import Itaruby.Schema.DumpScan
import Itaruby.Schema.ColumnLines
import Itaruby.Library.Parsing
import Itaruby.Rbs.Parser
import Itaruby.Rbs.TypeParams
import Itaruby.Rbs.Accepted
import Itaruby.Check.Suggestions
import Itaruby.Check.Canonical
import Itaruby.Index.MixinScopes
import Itaruby.Index.RbiClosure
import Itaruby.Index.Widening
import Itaruby.Command.Excerpts
import Itaruby.Command.RunCheck
import Itaruby.Index.PassRules
import Itaruby.Library.KeyedWrites
import Itaruby.Schema.Attributes
