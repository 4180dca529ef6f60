import Luava.AcceptedChunks
import Luava.CallBalance
import Luava.CallLaws
import Luava.CallResults
import Luava.CallbackLaws
import Luava.Chains
import Luava.Changes
import Luava.ChunkLoaders
import Luava.ChunkRoundTrip
import Luava.Chunks
import Luava.Closed
import Luava.Coercions
import Luava.Confined
import Luava.ConfinedRuns
import Luava.CoroutineRuns
import Luava.Coroutines
import Luava.Direct
import Luava.Effects
import Luava.FailureReports
import Luava.FrameIndependence
import Luava.FrameLaws
import Luava.Frames
import Luava.GlobalNames
import Luava.HashInsertion
import Luava.HashNodes
import Luava.Heap
import Luava.Interning
import Luava.InterpreterLaws
import Luava.Lifecycle
import Luava.LiftedOperations
import Luava.Lifts
import Luava.LinkedLists
import Luava.Lookups
import Luava.Lowering
import Luava.Lstring
import Luava.Ltable
import Luava.LuaApi
import Luava.LuaInterpreter
import Luava.LuaStack
import Luava.Lundump
import Luava.Lvm
import Luava.Machine
import Luava.Marshalling
import Luava.MethodResults
import Luava.Numbers
import Luava.Operations
import Luava.Progress
import Luava.Readers
import Luava.Runs
import Luava.StackLaws
import Luava.StackPops
import Luava.StackReads
import Luava.StackSpace
import Luava.TableBorder
import Luava.TableContents
import Luava.TableCounters
import Luava.TableHandles
import Luava.TableHeap
import Luava.TableMap
import Luava.TableRehash
import Luava.TableSizes
import Luava.TableTraversal
import Luava.TypedReads
import Luava.UnprotectedErrors
import Luava.UpcallArguments
import Luava.UpcallErrors
import Luava.Utf8
import Luava.Value
import Luava.World
