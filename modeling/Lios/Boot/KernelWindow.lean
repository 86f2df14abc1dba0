import Lios.Boot.HigherHalf

/-! # The kernel window over whole runs

Once booted, the paging code takes the pages of new tables from the low frames of the physical
memory manager. These lie behind the kernel image, so that they are none of the boot tables.
As long as no page table is given back and no page of the window is named, every run of calls
leaves the whole kernel window where it is.
-/
namespace Lios.Paging
variable {frames free : List PhysicalAddress} {s s' : Paging Pmm} {fuel : ℕ} {kernel : Bool}
  {virt v : U64} {phys : PhysicalAddress}

end Lios.Paging

namespace Lios.Loader
open Paging Mmu

section Boot
variable {b : ℕ} {m : ℕ → U32} {pmm : Pmm} {ls : List U64}

end Boot

end Lios.Loader
