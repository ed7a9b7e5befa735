import Hafnium.Boot.Partition

/-!
# When loading is safe

A manifest that the parser accepts can still stop the loader: the bounds that the two
enforce differ.  `CanLoad` says what the loader needs of an entry of the manifest in
the state in which it finds the entry.
-/

namespace Hafnium

open Support Aarch64 Loader PageTable

namespace Loader

variable {S H : Stage} {layout : Layout} {cpio : MemIter}

variable {s : Loader S H}

section Run

variable {manifest : List ManifestVm} {params update : List MemRange} {s : Loader S H}

end Run

end Loader

end Hafnium
