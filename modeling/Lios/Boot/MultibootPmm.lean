import Lios.Boot.MultibootTags
import Lios.Mem.PmmWrites

/-! # The multiboot structure while the manager is built

In the second pass the manager writes its nodes into memory while the structure is still being
read. The blocks leave the structure out, but the last node of the block before it may reach over
the end of the block. The structure begins at a multiple of eight, and so do the nodes, so the
node reaches at most eight bytes into the structure, and these are not read any more.
-/
namespace Lios
open PmmInit

section Structure
variable {kernelEnd multibootStart multibootEnd total : U64} {map : List MmapEntry}

end Structure

namespace Multiboot

section SecondPass
variable {kernelEnd multibootStart multibootEnd total : U64} {map : List MmapEntry} {s u : Boot}
  {fuel : ℕ}

end SecondPass

/-! The two passes together. -/

section Passes
variable {kernelEnd : U64} {ts us : List (Tag × List U8)}

end Passes

end Multiboot

end Lios
