import MfExtensions.Lib.OrdMap
import MfExtensions.Lib.Exec
import MfExtensions.Lib.Machine
import MfExtensions.Lib.Climb
import MfExtensions.Lib.Peg
import MfExtensions.Lib.PegRules
import MfExtensions.Lib.PegActions
import MfExtensions.Lib.PegYields
import MfExtensions.Lib.Window
import MfExtensions.Lib.Burst
import MfExtensions.Lib.Flat
import MfExtensions.Lib.Joined
import MfExtensions.Lib.Pieces
import MfExtensions.Lib.Streak
import MfExtensions.Types
import MfExtensions.Domain
import MfExtensions.Cell
import MfExtensions.Hitmap
import MfExtensions.HitmapRun
import MfExtensions.Condition
import MfExtensions.Participants
import MfExtensions.Boolean
import MfExtensions.DomainExpr
import MfExtensions.DomainOps
import MfExtensions.Rule
import MfExtensions.RichMsg
import MfExtensions.Engine
import MfExtensions.Watch
import MfExtensions.CellThreads
import MfExtensions.Rate
import MfExtensions.CellRun
import MfExtensions.RuleRun
import MfExtensions.Registration
import MfExtensions.QtMfMsg
import MfExtensions.MsgSource
import MfExtensions.UdpReceiver
import MfExtensions.UdpSender
import MfExtensions.UdpRoute
import MfExtensions.UdpLink
import MfExtensions.LogReader
import MfExtensions.Ots
import MfExtensions.MsgViewer
import MfExtensions.MsgViewerDlg
import MfExtensions.ThrottleRun
import MfExtensions.Smtp
import MfExtensions.Upload
import MfExtensions.Mail
import MfExtensions.Parse
import MfExtensions.RuleTree
import MfExtensions.TestParse
import MfExtensions.TestTree
import MfExtensions.Renaming
import MfExtensions.Proofs.UdpReceiver
import MfExtensions.Proofs.UdpPacket
import MfExtensions.Proofs.UdpRoundTrip
import MfExtensions.Proofs.UdpNumbers
import MfExtensions.Proofs.UdpRoute
import MfExtensions.Proofs.UdpLink
import MfExtensions.Proofs.Filename
import MfExtensions.Proofs.LogReader
import MfExtensions.Proofs.Polling
import MfExtensions.Proofs.Ots
import MfExtensions.Proofs.Participants
import MfExtensions.Proofs.Cell
import MfExtensions.Proofs.Condition
import MfExtensions.Proofs.Groups
import MfExtensions.Proofs.Domain
import MfExtensions.Proofs.DomainExpr
import MfExtensions.Proofs.DomainSets
import MfExtensions.Proofs.DomainOps
import MfExtensions.Proofs.DomainUnion
import MfExtensions.Proofs.Reading
import MfExtensions.Proofs.RuleConfig
import MfExtensions.Proofs.Evaluate
import MfExtensions.Proofs.Notify
import MfExtensions.Proofs.Steps
import MfExtensions.Proofs.Invariants
import MfExtensions.Proofs.Alarms
import MfExtensions.Proofs.Primitive
import MfExtensions.Proofs.Bounds
import MfExtensions.Proofs.Feed
import MfExtensions.Proofs.Registration
import MfExtensions.Proofs.Takes
import MfExtensions.Proofs.Heeds
import MfExtensions.Proofs.Bursts
import MfExtensions.Proofs.DomainCache
import MfExtensions.Proofs.AlarmKeys
import MfExtensions.Proofs.FeedThrows
import MfExtensions.Proofs.Locality
import MfExtensions.Proofs.RuleOrder
import MfExtensions.Proofs.Twin
import MfExtensions.Proofs.Events
import MfExtensions.Proofs.TwinEngine
import MfExtensions.Proofs.GroundState
import MfExtensions.Proofs.Reporting
import MfExtensions.Proofs.RichMsg
import MfExtensions.Proofs.Typing
import MfExtensions.Proofs.CellThreads
import MfExtensions.Proofs.CellRun
import MfExtensions.Proofs.HitmapRun
import MfExtensions.Proofs.HitmapCount
import MfExtensions.Proofs.Sources
import MfExtensions.Proofs.Trigger
import MfExtensions.Proofs.CellWindow
import MfExtensions.Proofs.RuleRun
import MfExtensions.Proofs.MsgViewer
import MfExtensions.Proofs.Intersect
import MfExtensions.Proofs.ViewerCounts
import MfExtensions.Proofs.ShownTab
import MfExtensions.Proofs.Drawing
import MfExtensions.Proofs.Displays
import MfExtensions.Proofs.DlgRuns
import MfExtensions.Proofs.Throttle
import MfExtensions.Proofs.Filter
import MfExtensions.Proofs.FilterExpression
import MfExtensions.Proofs.Smtp
import MfExtensions.Proofs.Upload
import MfExtensions.Proofs.Mail
import MfExtensions.Proofs.Print
import MfExtensions.Proofs.ParseTokens
import MfExtensions.Proofs.ParseBoolean
import MfExtensions.Proofs.ParseDomain
import MfExtensions.Proofs.ParseReal
import MfExtensions.Proofs.ParseRule
import MfExtensions.Proofs.ParseNotify
import MfExtensions.Proofs.ParseTest
import MfExtensions.Proofs.ParseGrammar
import MfExtensions.Proofs.Configure
import MfExtensions.Proofs.SyncRun
