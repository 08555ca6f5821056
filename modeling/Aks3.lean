import Aks3.Lib.Text
import Aks3.Lib.Fold
import Aks3.Lib.Prog
import Aks3.Lib.FileTree
import Aks3.Lib.Fs
import Aks3.Lib.Sys
import Aks3.Lib.StdFs
import Aks3.Lib.FsSpec
import Aks3.Lib.StdFsRun
import Aks3.Engine.Checksum
import Aks3.Engine.Layer
import Aks3.Engine.Paths
import Aks3.Engine.Meta
import Aks3.Engine.Walk
import Aks3.Engine.Calls
import Aks3.Engine.Atomic
import Aks3.Engine.BucketName
import Aks3.Engine.FsEngine
import Aks3.Engine.Layout
import Aks3.Engine.Listing
import Aks3.Engine.Reads
import Aks3.Engine.WalkSpec
import Aks3.Engine.Lists
import Aks3.Engine.Paging
import Aks3.Lib.Disk
import Aks3.Engine.Writes
import Aks3.Engine.Methods
import Aks3.Engine.Buckets
import Aks3.Engine.Store
import Aks3.Engine.Refine
import Aks3.Engine.Sample
import Aks3.Engine.Limits
import Aks3.Engine.Rejected
import Aks3.Engine.Stamps
import Aks3.Api.Checksum
import Aks3.Api.Service
import Aks3.Api.Verified
import Aks3.Api.Supplied
import Aks3.Lib.LockTable
import Aks3.Lib.LockTableSpec
import Aks3.Engine.LockOrder
import Aks3.Engine.Locking
import Aks3.Engine.LockUse
import Aks3.Engine.Progress
import Aks3.Engine.Effects
import Aks3.Engine.Laid
import Aks3.Api.Ranged
import Aks3.Engine.History
import Aks3.Engine.Crc
import Aks3.Api.Bursts
import Aks3.Engine.Strays
import Aks3.Engine.Durable
import Aks3.Engine.DeleteDurable
import Aks3.Lib.Pairing
import Aks3.Lib.Visits
import Aks3.Engine.Dangling
import Aks3.Engine.Leaks
import Aks3.Api.Chunked
import Aks3.Engine.FailedCreate
import Aks3.Engine.Folding
import Aks3.Engine.Names
import Aks3.Server.Domains
import Aks3.Engine.Published
import Aks3.Engine.ReadAfterWrite
import Aks3.Api.Front
