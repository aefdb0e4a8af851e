import Scriptorium.Effects
import Scriptorium.PosixPath
import Scriptorium.PathWalk
import Scriptorium.FileTree
import Scriptorium.Syscalls
import Scriptorium.HostPath
import Scriptorium.ServiceError
import Scriptorium.Address
import Scriptorium.HostFs
import Scriptorium.Workspace
import Scriptorium.ResolvePath
import Scriptorium.TarArchive
import Scriptorium.Transfer
import Scriptorium.ListFiles
import Scriptorium.Oss
import Scriptorium.CivilDate
import Scriptorium.ObjectKeys
import Scriptorium.DateText
import Scriptorium.Fetch
import Scriptorium.Service
import Scriptorium.Agreement
import Scriptorium.Secrecy
import Scriptorium.PackingSecrecy
import Scriptorium.Confidentiality
import Scriptorium.FetchGuard
import Scriptorium.Transitions
import Scriptorium.Container
import Scriptorium.ExecOneshot
import Scriptorium.ExecStream
import Scriptorium.ExecOrder
import Scriptorium.WallClock
import Scriptorium.ExecPool
import Scriptorium.ExecParams
import Scriptorium.HomeMount
import Scriptorium.UploadRun
import Scriptorium.LiveUpload
import Scriptorium.LiveExport
import Scriptorium.Faults
import Scriptorium.Replacement
import Scriptorium.TakingTurns
import Scriptorium.Entries
import Scriptorium.Region
import Scriptorium.Confinement
import Scriptorium.Ending
import Scriptorium.ImportRun
import Scriptorium.Isolation
import Scriptorium.RejectedImport
import Scriptorium.RawImport
import Scriptorium.Layout
import Scriptorium.Extraction
import Scriptorium.Leading
import Scriptorium.Installation
import Scriptorium.ArchiveModes
import Scriptorium.Ingress
import Scriptorium.AddressFamilies
import Scriptorium.FetchBody
import Scriptorium.FailedFetch
import Scriptorium.SparedTarget
import Scriptorium.ArchiveReplacement
import Scriptorium.KeptWay
import Scriptorium.TransferSteps
import Scriptorium.TransferFrame
import Scriptorium.ImportSuccess
import Scriptorium.TransferReach
import Scriptorium.Descent
import Scriptorium.Packing
import Scriptorium.RoundTrip
import Scriptorium.Listing
import Scriptorium.Homes
import Scriptorium.HomeRuns
import Scriptorium.Residue
import Scriptorium.Interference
import Scriptorium.SharedTarget
import Scriptorium.AmongOthers
import Scriptorium.TakingTarget
import Scriptorium.ConcurrentImports
import Scriptorium.Json
import Scriptorium.ToolArgs
import Scriptorium.SharedFiles
import Scriptorium.TempPaths
import Scriptorium.PackedFile
import Scriptorium.ArchiveLifetime
import Scriptorium.UploadAgreement
