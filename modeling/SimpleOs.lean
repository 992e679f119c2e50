import SimpleOs.Paging.Fault
import SimpleOs.Library.Sweep
import SimpleOs.Paging.Eviction
import SimpleOs.Library.Runs
import SimpleOs.Paging.Isolation
import SimpleOs.Paging.Labels
import SimpleOs.Paging.Findable
import SimpleOs.Paging.Residence
import SimpleOs.Library.LinkedList
import SimpleOs.Threads.Refill
import SimpleOs.Threads.Calls
import SimpleOs.Threads.Partition
import SimpleOs.Threads.Identity
import SimpleOs.Threads.Join
import SimpleOs.Threads.Waiting
import SimpleOs.Threads.Wakeup
import SimpleOs.Threads.Scan
import SimpleOs.Threads.EarlyReturn
import SimpleOs.Heap.Allocator
import SimpleOs.Heap.Blocks
import SimpleOs.Heap.Coalescing
import SimpleOs.Heap.Allocation
import SimpleOs.Heap.Interference
import SimpleOs.Heap.Charging
import SimpleOs.Files.Device
import SimpleOs.Files.Bytemap
import SimpleOs.Files.Calls
import SimpleOs.Files.Creation
import SimpleOs.Files.Removal
import SimpleOs.Files.Errors
import SimpleOs.Threads.Mutex
import SimpleOs.Paging.Exit
import SimpleOs.Heap.Representation
import SimpleOs.Files.Records
import SimpleOs.Files.Directories
import SimpleOs.Files.Freeing
import SimpleOs.Files.Consistency
import SimpleOs.Files.Lookup
import SimpleOs.Files.Found
import SimpleOs.Kernal.Nodes
import SimpleOs.Kernal.Overlap
import SimpleOs.Threads.Exiting
import SimpleOs.Threads.Returns
import SimpleOs.Threads.Delivery
import SimpleOs.Threads.Published
import SimpleOs.Threads.Policy
import SimpleOs.Files.Listing
import SimpleOs.Files.Unresolved
import SimpleOs.Kernal.Deallocation
import SimpleOs.Kernal.Allocation
import SimpleOs.Kernal.Bounds
import SimpleOs.Heap.Sizes
import SimpleOs.Heap.Budget
import SimpleOs.Paging.SecondChance
import SimpleOs.Files.FreeEntry
import SimpleOs.Files.ListingOpens
import SimpleOs.Files.FailedCreation
import SimpleOs.Files.Resolution
import SimpleOs.Files.FullCheck
import SimpleOs.Heap.Recharging
import SimpleOs.Threads.Aging
import SimpleOs.Threads.Enqueue
import SimpleOs.Kernal.ThreadBlocks
import SimpleOs.Files.Addressing
import SimpleOs.Files.Splitting
import SimpleOs.Library.FeedbackQueue
import SimpleOs.Paging.Integrity
import SimpleOs.Paging.PrivateMemory
import SimpleOs.Threads.BoundedWait
import SimpleOs.Threads.Statuses
import SimpleOs.Files.Attributes
import SimpleOs.Files.BlockDevice
import SimpleOs.Files.Nameless
import SimpleOs.Heap.Layout
import SimpleOs.Kernal.Capacity
import SimpleOs.Kernal.Objects
import SimpleOs.Kernal.Placement
import SimpleOs.Threads.LockOwner
import SimpleOs.Threads.Progress
