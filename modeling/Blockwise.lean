import Blockwise.Action
import Blockwise.Bytes
import Blockwise.Word
import Blockwise.Grid
import Blockwise.Occupancy
import Blockwise.Tally
import Blockwise.Sizing
import Blockwise.Arena
import Blockwise.Recency
import Blockwise.Recency.Labels
import Blockwise.Engine
import Blockwise.Engine.Fleet
import Blockwise.FileCache
import Blockwise.ScratchPool
import Blockwise.Tier
import Blockwise.Stream
import Blockwise.Stream.CachedReader
import Blockwise.Stream.CachedWriter
import Blockwise.Volume
import Blockwise.Volume.Memory
import Blockwise.Volume.Guard
import Blockwise.Policy
import Blockwise.Volume.Directory
import Blockwise.Volume.Disk.Tree
import Blockwise.Volume.Disk
import Blockwise.Volume.World
import Blockwise.Session
import Blockwise.Settings.Toml
import Blockwise.Settings
import Blockwise.Digest
import Blockwise.Tally.Reading
import Blockwise.Text
import Blockwise.Proofs.Ends
import Blockwise.Proofs.Word
import Blockwise.Proofs.Matching
import Blockwise.Proofs.Regime
import Blockwise.Proofs.Occupancy
import Blockwise.Proofs.Arena
import Blockwise.Proofs.Recency
import Blockwise.Proofs.Engine.Claims
import Blockwise.Proofs.Engine.Sound
import Blockwise.Proofs.Engine.Calls
import Blockwise.Proofs.Engine.History
import Blockwise.Proofs.Engine.Ownership
import Blockwise.Proofs.Engine.Content
import Blockwise.Proofs.Engine.Residency
import Blockwise.Proofs.Engine.Allocation
import Blockwise.Proofs.Engine.Blind
import Blockwise.Proofs.Engine.Provenance
import Blockwise.Proofs.Engine.Accounting
import Blockwise.Proofs.Maps
import Blockwise.Proofs.FileCache
import Blockwise.Proofs.FileCache.Orphans
import Blockwise.Proofs.FileCache.BlockMap
import Blockwise.Proofs.FileCache.Recent
import Blockwise.Proofs.FileCache.Accounting
import Blockwise.Proofs.FileCache.Others
import Blockwise.Proofs.ScratchPool
import Blockwise.Proofs.Tier
import Blockwise.Proofs.Tier.Safety
import Blockwise.Proofs.Tier.Recent
import Blockwise.Proofs.Tier.Sharing
import Blockwise.Proofs.Tier.Others
import Blockwise.Proofs.Ranges
import Blockwise.Proofs.Stream.Reading
import Blockwise.Proofs.Stream.Writing
import Blockwise.Proofs.Stream.Safety
import Blockwise.Proofs.Stream.Warm
import Blockwise.Proofs.Stream.Sharing
import Blockwise.Proofs.Stream.Views
import Blockwise.Proofs.Volume.Names
import Blockwise.Proofs.Volume.Shelf
import Blockwise.Proofs.Volume.World
import Blockwise.Proofs.Volume.Safety
import Blockwise.Proofs.Stream.Destination
import Blockwise.Proofs.Stream.Ledger
import Blockwise.Proofs.Stream.Withdrawal
import Blockwise.Proofs.Volume.Recorded
import Blockwise.Proofs.Volume.Files
import Blockwise.Proofs.Volume.Disk.Tree
import Blockwise.Proofs.Volume.Disk
import Blockwise.Proofs.Session.Tracked
import Blockwise.Proofs.Session.Inputs
import Blockwise.Proofs.Session.Outputs
import Blockwise.Proofs.Session.Careful
import Blockwise.Proofs.Session.Transparency
import Blockwise.Proofs.Session.Replacement
import Blockwise.Proofs.Session.Separation
import Blockwise.Proofs.Session.Built
import Blockwise.Proofs.Session.Safety
import Blockwise.Proofs.Session.Origins
import Blockwise.Proofs.Session.Warm
import Blockwise.Proofs.Client
import Blockwise.Proofs.Client.Bypass
import Blockwise.Proofs.Client.Scratch
import Blockwise.Proofs.Tier.Names
import Blockwise.Proofs.Volume.Closing
import Blockwise.Proofs.Stream.Chunking
import Blockwise.Proofs.Stream.Accesses
import Blockwise.Proofs.Stream.Retry
import Blockwise.Proofs.Occupancy.Roster
import Blockwise.Proofs.Recency.Conservation
import Blockwise.Proofs.Engine.Inclusion
import Blockwise.Proofs.Engine.Contract
import Blockwise.Proofs.Engine.Layout
import Blockwise.Proofs.FileCache.NameTable
import Blockwise.Proofs.Volume.Stamps
import Blockwise.Proofs.Volume.Calm
import Blockwise.Proofs.Volume.Copying
import Blockwise.Proofs.Stream.Pouring
import Blockwise.Proofs.Session.Copying
import Blockwise.Proofs.Engine.FirstFit
import Blockwise.Proofs.Client.Steady
import Blockwise.Proofs.Client.Latch
import Blockwise.Proofs.Volume.Locks
import Blockwise.Proofs.Volume.Disk.Locks
