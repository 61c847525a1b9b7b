import Cherokee.Lib.Loop
import Cherokee.Lib.Search
import Cherokee.Lib.LineMachine
import Cherokee.Lib.DelimScan
import Cherokee.CppString
import Cherokee.Message
import Cherokee.Action
import Cherokee.HandleRecv
import Cherokee.RecvSpec
import Cherokee.Absorb
import Cherokee.RecvRun
import Cherokee.Chunking
import Cherokee.Exact
import Cherokee.RequestFormat
import Cherokee.Upload
import Cherokee.Pipeline
import Cherokee.HandleSend
import Cherokee.Wire
import Cherokee.Lib.Transition
import Cherokee.Calls
import Cherokee.InOrder
import Cherokee.ThreadPool
import Cherokee.Listen
import Cherokee.Descriptors
import Cherokee.Interference
import Cherokee.Paths
import Cherokee.Store
import Cherokee.Uploading
import Cherokee.StoredFile
import Cherokee.Aborted
import Cherokee.Serial
import Cherokee.WebServer
import Cherokee.Attended
import Cherokee.Outgoing
import Cherokee.Microsteps
import Cherokee.Overlap
import Cherokee.Arming
import Cherokee.PutRequest
import Cherokee.PutOnce
import Cherokee.Lingering
import Cherokee.Lib.LastWins
import Cherokee.HeadTrip
import Cherokee.HeaderLines
import Cherokee.PartHeader
import Cherokee.ContentScan
import Cherokee.RequestTable
import Cherokee.PartialSends
import Cherokee.ResourceSplit
import Cherokee.Dispatch
import Cherokee.FailedSend
import Cherokee.SendLoop
import Cherokee.ResponseHeads
import Cherokee.GetEffects
import Cherokee.FileList
import Cherokee.PageMarkup
import Cherokee.ContentTypeLine
import Cherokee.Answered
import Cherokee.Lib.Simulation
import Cherokee.FileSystem
import Cherokee.FileServer
import Cherokee.FileStore
import Cherokee.Arriving
import Cherokee.Answering
import Cherokee.Simulated
import Cherokee.SimulatedRecv
import Cherokee.SimulatedSend
import Cherokee.Linear
import Cherokee.LockedPool
import Cherokee.OneShot
import Cherokee.Lib.Holders
import Cherokee.MainLoop
import Cherokee.FileLoop
import Cherokee.WhiteSpace
import Cherokee.Lib.Records
import Cherokee.Listing
import Cherokee.Snapshot
