import Roast.Semantics.Decides
import Roast.Assembly.Lowering
import Roast.Assembly.StackFrame
import Roast.Assembly.Booleans
import Roast.Assembly.ArrayBounds
import Roast.Assembly.CodeGenerator
import Roast.Assembly.Symbols
import Roast.Assembly.GlobalInitialization
import Roast.Assembly.Kinds
import Roast.Systems.Regex
import Roast.Scanner.Scanner
import Roast.Parser.Programs
import Roast.Semantics.Constructed
import Roast.Semantics.Literals
import Roast.Assembly.LocalInitialization
import Roast.Optimizations.DeadCodeElimination
import Roast.Assembly.Processor
import Roast.Assembly.CallingConvention
import Roast.Systems.Search
import Roast.Assembly.Arithmetic
import Roast.Optimizations.ConstantFolding
import Roast.Parser.Termination
import Roast.Assembly.ArrayLengths
import Roast.Assembly.LoweredExpressions
import Roast.Semantics.AssignedTokens
import Roast.Assembly.GlobalEncoding
import Roast.Optimizations.ReachingDefinitions
import Roast.Assembly.PhiSlots
import Roast.Optimizations.KnownConstants
import Roast.Optimizations.KnownCopies
import Roast.Assembly.SsaForm
import Roast.Assembly.EmittedRuns
import Roast.Assembly.InterpretedCode
import Roast.Semantics.FrontEnd
import Roast.Assembly.Targets
