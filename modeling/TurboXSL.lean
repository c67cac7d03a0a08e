import TurboXSL.Library.Machine
import TurboXSL.Library.Arena
import TurboXSL.Library.Delimiter
import TurboXSL.Node
import TurboXSL.ParseSafety
import TurboXSL.ParseProgress
import TurboXSL.ParseNesting
import TurboXSL.ParseCompleteness
import TurboXSL.RoundTrip
import TurboXSL.TemplateSoundness
import TurboXSL.TemplateCompleteness
import TurboXSL.TemplateConflicts
import TurboXSL.ParseTree
import TurboXSL.Axes
import TurboXSL.AxisLaws
import TurboXSL.Copies
import TurboXSL.PathSyntax
import TurboXSL.XPathFrame
import TurboXSL.Sorting
import TurboXSL.SortedVisits
import TurboXSL.Numbering
import TurboXSL.VisitLaws
import TurboXSL.Selections
import TurboXSL.PathSteps
import TurboXSL.Regions
import TurboXSL.DocumentRegions
import TurboXSL.PathRuns
import TurboXSL.StepLaws
import TurboXSL.Anchoring
import TurboXSL.DeepSteps
import TurboXSL.Unions
import TurboXSL.Terms
import TurboXSL.Printing
import TurboXSL.Reparsing
import TurboXSL.Compile
import TurboXSL.Scanner
import TurboXSL.ScanProgress
import TurboXSL.ScanRuns
import TurboXSL.CompileRuns
import TurboXSL.NodeSets
import TurboXSL.StringValues
import TurboXSL.Comparisons
import TurboXSL.Predicates
import TurboXSL.VisitPositions
import TurboXSL.Results
import TurboXSL.VerbatimCopies
import TurboXSL.CopyRuns
import TurboXSL.Library.Interleaving
import TurboXSL.UnboundedQueue
import TurboXSL.ThreadPool
import TurboXSL.Dictionary
import TurboXSL.DictionaryRuns
import TurboXSL.GroupRights
import TurboXSL.StylesheetLoading
import TurboXSL.Library.Programs
import TurboXSL.Instructions
import TurboXSL.TaskModes
import TurboXSL.TaskPool
import TurboXSL.PoolRuns
import TurboXSL.Library.InsertOnce
import TurboXSL.Library.Objects
import TurboXSL.ConcurrentDictionary
import TurboXSL.Allocator
import TurboXSL.SortLaws
import TurboXSL.Literals
import TurboXSL.Library.Rounding
import TurboXSL.Remainders
import TurboXSL.NameTests
import TurboXSL.Library.Grafting
import TurboXSL.BuiltDocuments
import TurboXSL.NodeIds
import TurboXSL.Escaping
import TurboXSL.ValueTemplates
import TurboXSL.WideStrings
import TurboXSL.Library.Buffer
import TurboXSL.StringBuilder
import TurboXSL.RawOutput
import TurboXSL.NumberValues
import TurboXSL.LocalVariables
import TurboXSL.Library.LastWrite
import TurboXSL.AttributeLists
import TurboXSL.Rereading
import TurboXSL.UnitFunctions
import TurboXSL.Normalizing
import TurboXSL.ScriptStrings
import TurboXSL.UrlCache
import TurboXSL.Stripping
import TurboXSL.Localizing
import TurboXSL.NumberFormat
import TurboXSL.NumberBuffers
import TurboXSL.NumberPatterns
import TurboXSL.NumberStrings
import TurboXSL.NumberGrouping
import TurboXSL.NumberRounding
import TurboXSL.Survivals
import TurboXSL.Library.FirstOccurrences
import TurboXSL.TaskGraph
import TurboXSL.DecodingRange
import TurboXSL.ScopeCopies
import TurboXSL.CurrentNode
import TurboXSL.CheckedCalls
import TurboXSL.Library.Knowledge
import TurboXSL.EvaluationWrites
import TurboXSL.Realms
import TurboXSL.RealmWrites
import TurboXSL.Transforming
import TurboXSL.TransformationRuns
import TurboXSL.PoolProgress
import TurboXSL.LoadedDocuments
import TurboXSL.Library.Blocks
import TurboXSL.Md5
import TurboXSL.Allocators
import TurboXSL.GlobalVariables
import TurboXSL.StringFunctions
