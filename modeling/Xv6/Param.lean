/-! The sizes of `kernel/param.h`, `kernel/fs.h` and `kernel/riscv.h` that several modules share. -/
namespace Xv6

def nproc : Nat := 64
theorem nproc_pos : 0 < nproc := by decide
theorem one_lt_nproc : 1 < nproc := by decide
def nofile : Nat := 16
def nfile : Nat := 100
def ninode : Nat := 50
def pgsize : Nat := 4096
def bsize : Nat := 1024
def ndirect : Nat := 12
/-- `BSIZE / sizeof(uint)` -/
def nindirect : Nat := 256
def maxfile : Nat := ndirect+nindirect
def dirsiz : Nat := 14
/-- `sizeof(struct dirent)` -/
def direntSize : Nat := 16

/-- Conversion to `short`. -/
def short (n : Int) : Int := (n+32768)%65536-32768

end Xv6
