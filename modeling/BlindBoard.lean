import BlindBoard.Lib.Run
import BlindBoard.Lib.Path
import BlindBoard.Lib.Store
import BlindBoard.Lib.FixedWidth
import BlindBoard.Lib.PercentEncoding
import BlindBoard.Impl.Models
import BlindBoard.Impl.Date
import BlindBoard.Impl.Firebase
import BlindBoard.Impl.ImageService
import BlindBoard.Impl.App
import BlindBoard.Impl.AddContent
import BlindBoard.Impl.System
import BlindBoard.Impl.World
import BlindBoard.Impl.Timeline
import BlindBoard.Spec.Board
import BlindBoard.Proof.Names
import BlindBoard.Proof.Moves
import BlindBoard.Proof.Pipeline
import BlindBoard.Proof.Provenance
import BlindBoard.Proof.Agrees
import BlindBoard.Proof.WordList
import BlindBoard.Proof.Comments
import BlindBoard.Proof.Detail
import BlindBoard.Proof.Images
import BlindBoard.Proof.CommentTable
import BlindBoard.Proof.Fetches
import BlindBoard.Proof.Desk
import BlindBoard.Proof.Sheets
import BlindBoard.Proof.Loader
import BlindBoard.Proof.Sessions
import BlindBoard.Proof.History
import BlindBoard.Proof.Order
import BlindBoard.Proof.Reports
import BlindBoard.Proof.Search
import BlindBoard.Proof.Devices
import BlindBoard.Spec.Shared
import BlindBoard.Proof.Uploads
import BlindBoard.Proof.Ledger
import BlindBoard.Proof.Shared
import BlindBoard.Proof.Rest
import BlindBoard.Impl.ProgressHUD
import BlindBoard.Spec.Loader
import BlindBoard.Proof.ProgressHUD
import BlindBoard.Lib.SortedSet
import BlindBoard.Lib.Utf8
import BlindBoard.Impl.Query
import BlindBoard.Impl.DocumentSet
import BlindBoard.Impl.View
import BlindBoard.Spec.Results
import BlindBoard.Proof.ViewChanges
import BlindBoard.Proof.Refill
import BlindBoard.Proof.Results
import BlindBoard.Proof.Snapshots
import BlindBoard.Proof.Changes
import BlindBoard.Impl.GetDocuments
import BlindBoard.Proof.Listeners
import BlindBoard.Proof.Clients
import BlindBoard.Proof.Calls
import BlindBoard.Proof.Answers
import BlindBoard.Proof.Collections
import BlindBoard.Impl.RandomAccessQueue
import BlindBoard.Impl.SyncEngine
import BlindBoard.Proof.LimboDocuments
