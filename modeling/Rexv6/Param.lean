/-!
Contract: the compile-time constants of `include/xv6/param.h`,
`include/xv6/fs.h` and `tools/mkfs/mkfs.cc` that the modelled code reads.

Does not own: constants of one component only; these stand beside the code
that uses them.
-/

namespace Rexv6

def maxOpBlocks : Nat := 10

def logSize : Nat := maxOpBlocks * 3

def bSize : Nat := 512

def nBuf : Nat := maxOpBlocks * 3

def nProc : Nat := 64

def nInode : Nat := 50

def fsSize : Nat := 1000

def nDev : Nat := 10

/-- `nlog` of `mkfs.cc`: the number of log blocks `mkfs` lays out, header
included. -/
def nlog : Nat := logSize

end Rexv6
