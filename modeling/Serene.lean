import Serene.ReaderSafety
import Serene.SourceRanges
import Serene.LineLookup
import Serene.CounterLimits
import Serene.SymbolNames
import Serene.AtomBoundaries
import Serene.ErrorPlaces
import Serene.Slices
import Serene.Namespaces
import Serene.SourceIndex
import Serene.ObjectCaching
import Serene.CacheOwnership
import Serene.Environments
import Serene.BufferVector
import Serene.TrackerAgreement
import Serene.NullResults
import Serene.DumpUniqueness
import Serene.NumberPrinting
import Serene.NodeCopies
import Serene.ErrorEntries
import Serene.ReplRefinement
import Serene.ScreenSessions
import Serene.ScreenWindows
import Serene.LoadedTexts
import Serene.WrittenTrees
import Serene.Drafts
import Serene.JitSessions
import Serene.Completions
