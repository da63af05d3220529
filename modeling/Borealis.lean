import Borealis.Term.Predicate
import Borealis.State.Simplify
import Borealis.State.Unreachable
import Borealis.State.SliceOn
import Borealis.State.VisitedLoci
import Borealis.State.Slicer
import Borealis.PredicateStateAnalysis.OptimizeChoices
import Borealis.Interpreter.DoubleInterval
import Borealis.Executor.StoreBounds
import Borealis.Executor.FlatMemory
import Borealis.Executor.FlatRun
import Borealis.Executor.FreeExact
import Borealis.Executor.LoadBytes
import Borealis.Executor.Memchr
import Borealis.Executor.StdLib
import Borealis.Executor.Containment
import Borealis.SMT.Allocations
import Borealis.SMT.ArrayBackEnds
import Borealis.SMT.ForceCast
import Borealis.SMT.InitialMemory
import Borealis.SMT.Quantified
import Borealis.SMT.RangeWrite
import Borealis.SMT.ScatterArray
import Borealis.SMT.Merge
import Borealis.SMT.Feasible
import Borealis.Lib.Dominance
import Borealis.Lib.WorkQueue
import Borealis.PredicateStateAnalysis.Agreement
import Borealis.PredicateStateAnalysis.Coverage
import Borealis.Defect.DefectManager
import Borealis.Lib.Search
import Borealis.Lib.SignedDivision
import Borealis.Passes.CallGraphSlicer
import Borealis.Passes.CheckNullDereference
import Borealis.Passes.Executions
import Borealis.Passes.VariableInfoTracker
import Borealis.PredicateAnalysis.DefaultPredicateAnalysis
import Borealis.PredicateAnalysis.Satisfied
import Borealis.State.CallSiteInitializer
import Borealis.State.CaptureFree
import Borealis.Interpreter.HandleDeclaration
import Borealis.Anno.Grammar
import Borealis.Anno.Leaves
import Borealis.Anno.Precedence
import Borealis.Anno.Printed
import Borealis.Interpreter.IntegerCasts
import Borealis.Interpreter.PhiNode
import Borealis.Interpreter.StateSplit
import Borealis.Interpreter.SwitchTransfer
import Borealis.Interpreter.Worklist
import Borealis.Interpreter.ArrayAccess
import Borealis.Interpreter.IntervalBits
import Borealis.Interpreter.IntervalCompare
import Borealis.Interpreter.LinearConstraint
import Borealis.Interpreter.IntervalDivision
import Borealis.Interpreter.IntervalLaws
import Borealis.Interpreter.IntervalShift
import Borealis.Interpreter.IntervalSplit
import Borealis.Interpreter.PointerJoin
import Borealis.Interpreter.PointerCompare
import Borealis.Interpreter.SeparateDomain
import Borealis.Passes.FunctionManager
import Borealis.Type.Canonical
import Borealis.SMT.TermTranslation
import Borealis.Term.GepShift
import Borealis.State.TermSimplifier
import Borealis.State.MemorySpacer
import Borealis.Interpreter.OutOfBounds
import Borealis.Term.Equality
import Borealis.State.ConstantPropagator
import Borealis.State.AnnotationComparison
import Borealis.State.QueryChecker
import Borealis.State.OldValueExtractor
import Borealis.Util.Hamt
import Borealis.Util.HamtEquals
import Borealis.Passes.UglyGEPKiller
import Borealis.SMT.ProbeModels
import Borealis.SMT.RecoveredModel
import Borealis.Util.Json
import Borealis.Util.DisjointForest
import Borealis.Util.TopologicalOrder
import Borealis.Passes.LocationContainer
import Borealis.Lib.Kernel
import Borealis.Interpreter.DoubleOctagon
import Borealis.SMT.Portfolio
import Borealis.Passes.MallocMutator
import Borealis.Lib.Descent
import Borealis.Reanimator.ArrayBounds
import Borealis.Reanimator.Raising
import Borealis.Passes.FunctionBitCastKiller
import Borealis.Passes.DirectCalls
import Borealis.SMT.Interpolation
import Borealis.Lib.RoseTree
import Borealis.SMT.Unlogic
import Borealis.State.Cropper
import Borealis.PredicateStateAnalysis.TopDown
import Borealis.PredicateStateAnalysis.TopDownPaths
import Borealis.Executor.LoadSafety
import Borealis.Passes.CallGraphChopper
import Borealis.Interpreter.WorklistEnds
