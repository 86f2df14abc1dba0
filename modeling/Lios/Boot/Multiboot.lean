import Lios.Boot.BootFrames
import Lios.Lib.ByteFormat

/-! # The multiboot structure

The boot loader describes the machine in a list of tags, which `kmain` goes through twice. The
first pass adds up the available memory and takes down the frame buffer and the table of the
firmware; the second hands the memory over to the physical memory manager. The structure is read
at its physical address through the lower window, and the manager writes its nodes through the
kernel window, so both work on the same bytes while the second pass runs. What `kmain` only
prints is left out: the messages, the tags it prints without using them, and the colour it
computes for the frame buffer.
-/
namespace Lios

namespace Boot

end Boot

namespace Multiboot

def tagTypeEnd : U32 := 0#32
def tagTypeMmap : U32 := 6#32
def tagTypeFramebuffer : U32 := 8#32
def tagTypeEfi64 : U32 := 12#32

/-- `(tag->size + 7) & ~7`, which is computed in 32 bits. -/
def alignedSize (size : U32) : U64 := ((size + 7#32) &&& ~~~7#32).setWidth 64

end Multiboot

end Lios
