import Mathlib.Data.BitVec

/-! # Word types and constants shared by the kernel -/
namespace Lios

abbrev U8 := BitVec 8
abbrev U16 := BitVec 16
abbrev U32 := BitVec 32
abbrev U64 := BitVec 64

abbrev PhysicalAddress := U64

def kernelOffset : U64 := 0xFFFFFFFF80000000#64
def pageSize : U64 := 4096#64
def twoGB : U64 := 2147483648#64

end Lios
