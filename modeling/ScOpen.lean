import ScOpen.ByteOrder
import ScOpen.CTypes
import ScOpen.Hsms
import ScOpen.HsmsDelivery
import ScOpen.NumberText
import ScOpen.SecsItems
import ScOpen.SecsDecode
import ScOpen.SecsDecodeElements
import ScOpen.SecsDecodeTurn
import ScOpen.SecsDecodeAccepts
import ScOpen.ProgramTokens
import ScOpen.SecsEncode
import ScOpen.MakeLog
import ScOpen.MakeLogFits
import ScOpen.Sml
import ScOpen.SecsEncodeItem
import ScOpen.SecsEncodeTree
import ScOpen.SecsEncodeRefused
import ScOpen.SmlHeaders
import ScOpen.SecsEncodeRight
import ScOpen.IntegerValues
import ScOpen.LogItems
import ScOpen.LogsAgree
import ScOpen.SmlVariables
import ScOpen.SecsDecodeVars
import ScOpen.SecsDecodeNoArrays
import ScOpen.SecsDecodersAgree
import ScOpen.StoredValue
import ScOpen.SecsRoundTrip
import ScOpen.StoredText
import ScOpen.ReEncode
import ScOpen.SecsLine
import ScOpen.SendSecs
import ScOpen.SendSecsBlocks
import ScOpen.SendSecsRight
import ScOpen.RecvSecs
import ScOpen.RecvSecsSession
import ScOpen.RecvSecsDelivery
import ScOpen.RecvSecsOnce
import ScOpen.Runs
import ScOpen.Timers
import ScOpen.OpenTransTable
import ScOpen.Transactions
import ScOpen.SystemBytes
import ScOpen.Replies
import ScOpen.ProgramTimers
import ScOpen.MessageMarks
import ScOpen.ConvertedSizes
import ScOpen.EncodedItems
import ScOpen.EncodedItemsRight
import ScOpen.Interpreter
import ScOpen.Execute
import ScOpen.StructuredCode
import ScOpen.StructuredScans
import ScOpen.StructuredRun
import ScOpen.StructuredTurns
import ScOpen.StructuredLoops
import ScOpen.StructuredFors
import ScOpen.StructuredSteps
import ScOpen.StructuredWhiles
import ScOpen.LoopCounters
import ScOpen.Resume
import ScOpen.ControlEffects
import ScOpen.SortedArray
import ScOpen.VariableStore
import ScOpen.VariableOrder
import ScOpen.VariableEffects
import ScOpen.VariableDelete
import ScOpen.StoreRuns
import ScOpen.VariableScopes
import ScOpen.VariableKeys
import ScOpen.DefinedVariables
import ScOpen.DeletedVariables
import ScOpen.MemoryBytes
import ScOpen.TmpVariables
import ScOpen.TmpCapacity
import ScOpen.TmpValues
import ScOpen.TokenCodes
import ScOpen.GosubArguments
import ScOpen.GosubDelivery
import ScOpen.ReferenceCalls
import ScOpen.ReferenceChains
import ScOpen.References
import ScOpen.ReferencesRight
import ScOpen.Layouts
import ScOpen.StoredTokens
import ScOpen.ReadTokens
import ScOpen.StoredReads
import ScOpen.ProgramArray
import ScOpen.NumberedStacks
import ScOpen.Activities
import ScOpen.ActivityEffects
import ScOpen.ActivityRuns
import ScOpen.ReadSource
import ScOpen.Reloads
import ScOpen.Agreement
import ScOpen.ListBodies
import ScOpen.ListWalks
import ScOpen.ListCounts
import ScOpen.ListMarks
import ScOpen.ProtoTimers
import ScOpen.ServerTables
import ScOpen.FdInfo
import ScOpen.HsmsConnect
import ScOpen.Parse
import ScOpen.ParseLengths
import ScOpen.Halting
import ScOpen.ReadMachine
import ScOpen.SourceTokens
import ScOpen.ConditionalText
import ScOpen.ReadEnds
import ScOpen.EvaluateToken
import ScOpen.MessageHeaders
import ScOpen.StoredElements
import ScOpen.FixedArrays
import ScOpen.ItemPaths
import ScOpen.FailingGosubs
import ScOpen.TokenLoops
import ScOpen.FailingConditions
import ScOpen.Expression
import ScOpen.ExpressionTrees
import ScOpen.SolvedExpressions
import ScOpen.ExpressionValues
import ScOpen.PlainExpressions
import ScOpen.MalformedExpressions
import ScOpen.VariableTokens
import ScOpen.TokenReferences
import ScOpen.TokenValues
import ScOpen.ConvertData
import ScOpen.Escapes
import ScOpen.RecvStandard
import ScOpen.CommandLines
import ScOpen.IntegerArithmetic
import ScOpen.MakeTmpVariables
import ScOpen.TmpArguments
import ScOpen.ArgumentVariables
import ScOpen.ParseLocality
import ScOpen.ParseRuns
import ScOpen.CommentTails
import ScOpen.CommentSpaces
import ScOpen.ForRounds
import ScOpen.SkippedFors
import ScOpen.SubstrFunction
import ScOpen.ParseFunction
import ScOpen.BinaryFiles
import ScOpen.RecvTimer8
import ScOpen.Deadlines
import ScOpen.ServerTimeout
import ScOpen.CrossReferences
import ScOpen.DefineXref
import ScOpen.IncludeSearch
import ScOpen.Intervals
import ScOpen.Labels
import ScOpen.Substrings
import ScOpen.GetOpt
import ScOpen.RecvXml
import ScOpen.SumChecks
import ScOpen.Cells
import ScOpen.SwapFunction
import ScOpen.TextBuffers
import ScOpen.BufferRuns
import ScOpen.SecsChecksum
import ScOpen.LineFeeds
import ScOpen.LineNumbers
import ScOpen.LineBreaks
import ScOpen.LayoutsKept
import ScOpen.LayoutsBroken
import ScOpen.Dialogues
import ScOpen.Processes
import ScOpen.OnLine
import ScOpen.SecsStations
import ScOpen.SecsContention
import ScOpen.SecsDeadlock
import ScOpen.LinePhases
import ScOpen.SharedLine
import ScOpen.AwaitedReplies
import ScOpen.HsmsConversations
import ScOpen.HsmsTransactions
import ScOpen.HsmsCompletion
import ScOpen.HsmsStreams
import ScOpen.MessageVariables
import ScOpen.MessageDelivery
import ScOpen.Outcomes
import ScOpen.CodeBehaviour
import ScOpen.BehaviourSteps
import ScOpen.ProgramLogic
import ScOpen.ScopedMemory
import ScOpen.ScriptStatements
import ScOpen.ArrayNames
import ScOpen.ArrayScripts
import ScOpen.LabelJumps
import ScOpen.LabelRuns
