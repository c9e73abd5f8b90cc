import MdsPlus.ArgumentHistory
import MdsPlus.ArgumentTable
import MdsPlus.ArrayDescriptors
import MdsPlus.ArrayLayout
import MdsPlus.ArraySubscript
import MdsPlus.ArraySubscriptResult
import MdsPlus.ArraySubscriptRuns
import MdsPlus.AssignmentOperators
import MdsPlus.AttributeNames
import MdsPlus.AxisIndices
import MdsPlus.BinarySearch
import MdsPlus.BitMemory
import MdsPlus.BlockLayout
import MdsPlus.ByteFile
import MdsPlus.CascadeLocks
import MdsPlus.Characteristics
import MdsPlus.Cmprs
import MdsPlus.CmprsExceptions
import MdsPlus.CmprsRun
import MdsPlus.CmprsWidths
import MdsPlus.Codec
import MdsPlus.Comparisons
import MdsPlus.CompressChoice
import MdsPlus.ConglomerateNodes
import MdsPlus.ConglomerateRuns
import MdsPlus.ConnectionLocks
import MdsPlus.CopiedAttributes
import MdsPlus.CopiedSegments
import MdsPlus.CopyClasses
import MdsPlus.Cycles
import MdsPlus.DatabaseList
import MdsPlus.DatabaseRuns
import MdsPlus.Datafile
import MdsPlus.DatafileRecords
import MdsPlus.DatafileRuns
import MdsPlus.DeleteList
import MdsPlus.DescriptorCopies
import MdsPlus.DescriptorImages
import MdsPlus.DescriptorRecords
import MdsPlus.DescriptorTrees
import MdsPlus.DisarmedTables
import MdsPlus.DispatchBuild
import MdsPlus.DispatchGroups
import MdsPlus.DispatchOrder
import MdsPlus.DispatchPhase
import MdsPlus.DispatchTables
import MdsPlus.DistinctUnion
import MdsPlus.EditCalls
import MdsPlus.ElementArrays
import MdsPlus.ElementOrder
import MdsPlus.EventQueues
import MdsPlus.EventWaits
import MdsPlus.ExpressionTokens
import MdsPlus.ExtendedCopies
import MdsPlus.ExternalTrees
import MdsPlus.FailedCalls
import MdsPlus.FreeNodes
import MdsPlus.FunctionCalls
import MdsPlus.GrammarNodes
import MdsPlus.GrammarRuns
import MdsPlus.HostFiles
import MdsPlus.InsertTree
import MdsPlus.InsertTreeBalance
import MdsPlus.InsertTreeRuns
import MdsPlus.IntegerTokens
import MdsPlus.JobQueue
import MdsPlus.JobQueueAnswers
import MdsPlus.JobQueueRuns
import MdsPlus.JumpRuns
import MdsPlus.Jumps
import MdsPlus.LinkWalk
import MdsPlus.LinkedLists
import MdsPlus.LockBalance
import MdsPlus.LoopRuns
import MdsPlus.Loops
import MdsPlus.Mapping
import MdsPlus.MarkedNodes
import MdsPlus.Marking
import MdsPlus.MatchLoop
import MdsPlus.MessageAnswers
import MdsPlus.MessageBodies
import MdsPlus.MessageBoundaries
import MdsPlus.MessageHeaders
import MdsPlus.MessageReads
import MdsPlus.MessageSends
import MdsPlus.MessageStream
import MdsPlus.MessageTransfer
import MdsPlus.MonitorList
import MdsPlus.NameMatching
import MdsPlus.NamedAttributeMap
import MdsPlus.NamedAttributePages
import MdsPlus.NamedAttributes
import MdsPlus.NciItems
import MdsPlus.NewArrays
import MdsPlus.NodeDeletion
import MdsPlus.NodeFilter
import MdsPlus.NodeLinks
import MdsPlus.NodeSearch
import MdsPlus.NodeTree
import MdsPlus.Odometer
import MdsPlus.Outcome
import MdsPlus.OwnerChain
import MdsPlus.Pack
import MdsPlus.Packing
import MdsPlus.ParentState
import MdsPlus.ParentStateRuns
import MdsPlus.Rearrangement
import MdsPlus.RecordClasses
import MdsPlus.RecordCounts
import MdsPlus.RecordLocks
import MdsPlus.RecordParts
import MdsPlus.RecordPuts
import MdsPlus.RecordSizes
import MdsPlus.RemoteEvents
import MdsPlus.RequestAnswers
import MdsPlus.Responses
import MdsPlus.Restarts
import MdsPlus.SearchAnswers
import MdsPlus.SegmentBegin
import MdsPlus.SegmentCopies
import MdsPlus.SegmentFurther
import MdsPlus.SegmentLayout
import MdsPlus.SegmentLimits
import MdsPlus.SegmentMake
import MdsPlus.SegmentNode
import MdsPlus.SegmentOpen
import MdsPlus.SegmentPack
import MdsPlus.SegmentPages
import MdsPlus.SegmentPuts
import MdsPlus.SegmentReads
import MdsPlus.SegmentRecords
import MdsPlus.SegmentRowCounts
import MdsPlus.SegmentRows
import MdsPlus.SegmentRuns
import MdsPlus.SegmentUpdates
import MdsPlus.SegmentWrites
import MdsPlus.Segments
import MdsPlus.SerializedRecords
import MdsPlus.ServerClients
import MdsPlus.ServerCommands
import MdsPlus.ServerJobRuns
import MdsPlus.SetRange
import MdsPlus.SetRangeRuns
import MdsPlus.SignalSubscript
import MdsPlus.SortIndices
import MdsPlus.SortLoops
import MdsPlus.Statements
import MdsPlus.StrMatchWild
import MdsPlus.StringReplace
import MdsPlus.SubtreeLinks
import MdsPlus.SubtreeRuns
import MdsPlus.Subtrees
import MdsPlus.SwitchPlan
import MdsPlus.SwitchRuns
import MdsPlus.TableSearch
import MdsPlus.TagAdd
import MdsPlus.TagAnswers
import MdsPlus.TagInvariant
import MdsPlus.TagLookups
import MdsPlus.TagNames
import MdsPlus.TagRemove
import MdsPlus.TagRuns
import MdsPlus.TagSearch
import MdsPlus.TagTable
import MdsPlus.TextTokens
import MdsPlus.Traversals
import MdsPlus.TreeEdit
import MdsPlus.TreeVerify
import MdsPlus.UdpEvents
import MdsPlus.ValueRanges
import MdsPlus.VariableFrames
import MdsPlus.VariableKeys
import MdsPlus.VariableMaps
import MdsPlus.VariableNames
import MdsPlus.VariableRuns
import MdsPlus.Variables
import MdsPlus.VersionRecords
import MdsPlus.Wildcards
import MdsPlus.XpandCmprs
import MdsPlus.XpandReads
