import Wine.Handles.Balance
import Wine.Handles.Denote
import Wine.FileDesc.Sharing
import Wine.FileDesc.Cleared
import Wine.FileDesc.Deferred
import Wine.Security.Bounds
import Wine.Atoms.Runs
import Wine.Registry.Volatile
import Wine.User.Issued
import Wine.User.Classes
import Wine.Windows.Enumerate
import Wine.Mapping.Shared
import Wine.Objects.Endless
import Wine.Console.Follow
import Wine.Console.Input
import Wine.Console.Access
import Wine.Hooks.Kept
import Wine.Hooks.LowLevel
import Wine.Queues.Mirrors
import Wine.Atoms.Consistent
import Wine.Queues.ReplyRuns
import Wine.Libwine.Reserved
import Wine.Ntdll.AclEdit
import Wine.Ntdll.SelfRelative
import Wine.Ntdll.EnvCalls
import Wine.FileDesc.PollSlots
import Wine.Server.TimerOwners
import Wine.Msi.Interned
import Wine.Registry.Escapes
import Wine.Security.AdjustReport
import Wine.Timers.Timeouts
import Wine.Timers.Fresh
import Wine.FileDesc.LockFile
import Wine.Registry.Atomic
import Wine.Registry.Bounds
import Wine.Server.GrantRuns
import Wine.Server.Traversal
import Wine.Heaps.Validation
import Wine.Bitmaps.NextRunExact
import Wine.Bitmaps.SelectRuns
import Wine.Virtual.FreeArea
import Wine.Directory.MatchExact
import Wine.Directory.ShortNames
import Wine.Paths.FullPath
import Wine.Ntdll.ValidFields
import Wine.Libwine.Utf8Length
import Wine.Crypt32.Oids
import Wine.Virtual.Relocations
import Wine.Ole32.Chains
import Wine.Ole32.ChainCache
import Wine.Server.Ptid
import Wine.Msi.Streams
import Wine.Msi.TableView
import Wine.Regions.Algebra
