import Hafnium.Acceptance
import Hafnium.Boot.Archive
import Hafnium.Boot.Carving
import Hafnium.Boot.Cpus
import Hafnium.Boot.Initrd
import Hafnium.Boot.LoadSafety
import Hafnium.Boot.MemoryRanges
import Hafnium.Boot.NodeViews
import Hafnium.Boot.Partition
import Hafnium.Clearing
import Hafnium.Interleaving
import Hafnium.Interrupts
import Hafnium.Lists
import Hafnium.LockCycles
import Hafnium.Mm.BreakBeforeMake
import Hafnium.Mm.Pairing
import Hafnium.Mm.Splitting
import Hafnium.Mm.Unmapping
import Hafnium.Notifications
import Hafnium.Pools
import Hafnium.SecureCalls
import Hafnium.SleepTime
import Hafnium.WaitEntries
