import IoApps.BinaryRoundTrip
import IoApps.SimfsCheck
import IoApps.ReplicateUsage
import IoApps.ReplicateLifetime
import IoApps.ReplicateTables
import IoApps.ReplicateMoved
import IoApps.SimfsPhysical
import IoApps.ReplicatePaths
import IoApps.TrieSet
import IoApps.ReplicateServed
import IoApps.ReplicateIsolation
import IoApps.ReplicateKeys
import IoApps.ReplicateTracker
import IoApps.ReplicateIgnored
import IoApps.ReplicateOffsets
import IoApps.SimfsRepeat
import IoApps.SimfsSpelling
import IoApps.ReplicateSim
import IoApps.ReplicateSendfile
import IoApps.ReplicateMissing
import IoApps.ReplicateFailed
import IoApps.ReplicateShares
import IoApps.ReplicateSizes
import IoApps.SimfsNormal
import IoApps.TrieLookup
import IoApps.Lib.Numeral
import IoApps.Lib.Scanf
import IoApps.Strace
import IoApps.StraceComma
import IoApps.StraceTime
import IoApps.StraceChunks
import IoApps.StraceLines
import IoApps.StraceProcess
import IoApps.StracePending
import IoApps.StracePaths
import IoApps.StraceNames
import IoApps.StraceResumed
import IoApps.StraceBounds
import IoApps.FdAliases
import IoApps.Lib.Postorder
import IoApps.TrieTraversal
import IoApps.SimfsSplit
import IoApps.NamemapLoad
import IoApps.StraceReads
import IoApps.StraceTrace
import IoApps.StraceJoined
import IoApps.StraceWithin
import IoApps.StraceStats
import IoApps.StraceDescriptors
import IoApps.ReplicateCalls
import IoApps.ReplicateDry
import IoApps.ReplicatePace
import IoApps.Lib.Links
import IoApps.AdtList
import IoApps.AdtHashTable
import IoApps.SimulateCheck
import IoApps.SimulateProfile
import IoApps.StraceItems
import IoApps.Ioreplay
