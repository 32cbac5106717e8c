import Cvise.SpanSweep
import Cvise.Outcome
import Cvise.Text
import Cvise.TestCase
import Cvise.Hint
import Cvise.ApplyHints
import Cvise.MergePatches
import Cvise.ApplyHintsReference
import Cvise.PasteConflict
import Cvise.InlineIncludes
import Cvise.ElementaryState
import Cvise.HintState
import Cvise.Folding
import Cvise.PassContext
import Cvise.Cache
import Cvise.Manager
import Cvise.Transition
import Cvise.Completion
import Cvise.RunPasses
import Cvise.Execution
import Cvise.Moves
import Cvise.StepMoves
import Cvise.PhaseInvariant
import Cvise.CommitSafety
import Cvise.CacheSoundness
import Cvise.ContextSteps
import Cvise.Directories
import Cvise.RestartQueue
import Cvise.HintFreshness
import Cvise.DependeeBundles
import Cvise.JobAccounting
import Cvise.DeltaDebugging
import Cvise.HintRoundRobin
import Cvise.SubsegmentEnumeration
import Cvise.ChildTracking
import Cvise.ExceptionTriple
import Cvise.ReplaceAtomicity
import Cvise.HintRoundTrip
import Cvise.HintInvariant
import Cvise.StartWithPass
import Cvise.UnfinishedWork
import Cvise.BatchLoop
import Cvise.ChangedVariants
import Cvise.TextErrors
import Cvise.FoldHistory
import Cvise.FoldGrowth
import Cvise.RemoveExtraneous
import Cvise.ReportedSizes
import Cvise.SizeAccounting
import Cvise.ApplyFrame
import Cvise.PositionShift
import Cvise.SubtractHints
import Cvise.MappedPositions
import Cvise.EditedFiles
import Cvise.SubtractDeletions
import Cvise.SpanComposition
import Cvise.SubtractInsertions
import Cvise.ClexScanner
import Cvise.ClexLexemes
import Cvise.LineSplice
import Cvise.HintsToks
import Cvise.TokenHints
import Cvise.IfLines
import Cvise.IfValues
import Cvise.RmToks
import Cvise.BracketCuts
import Cvise.BalancedPass
import Cvise.BalancedHints
import Cvise.BalancedEdits
import Cvise.ClangDeltaHints
import Cvise.Topformflat
import Cvise.TopformflatTokens
import Cvise.ToplevelChunks
import Cvise.TopformflatFiles
import Cvise.MakefileParser
import Cvise.ShellFields
import Cvise.GappedText
import Cvise.JoinedLines
import Cvise.TokenPlaces
import Cvise.NestedMatcher
import Cvise.NestedSearch
import Cvise.PeepPass
import Cvise.TmpDirManager
import Cvise.CacheDirs
import Cvise.DirHash
import Cvise.RmTokPattern
import Cvise.ClangIncludeGraph
import Cvise.IncludeGraphMerge
import Cvise.RenameToks
import Cvise.FreshNames
import Cvise.ReplaceFunctionDef
import Cvise.SerialRuns
import Cvise.TextOrder
import Cvise.TokenWords
import Cvise.ClexModes
import Cvise.ClexTermination
import Cvise.PeepTermination
import Cvise.ClexDefine
import Cvise.NameReplacement
import Cvise.LineReplacement
import Cvise.DefineProgress
import Cvise.Backtracking
import Cvise.ClaimedFiles
import Cvise.Comments
import Cvise.Includes
import Cvise.KillerLiveness
import Cvise.LinePasses
import Cvise.ModificationPasses
import Cvise.Reduction
import Cvise.ClangModuleMap
import Cvise.MakefileArguments
import Cvise.ModuleMapBlocks
import Cvise.ModuleMapHints
import Cvise.ModuleMapPass
