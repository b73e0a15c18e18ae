import DuckOs.AddressModel

namespace DuckOs.PermissionFlags

/-- `R W X U` from bit 0. -/
abbrev MapPermission := BitVec 4
/-- `V R W X U G A D COW` from bit 0. -/
abbrev PTEFlags := BitVec 9
abbrev PagePermission := BitVec 5
/-- `PROT_READ PROT_WRITE PROT_EXEC` from bit 0. -/
abbrev MmapProt := BitVec 3
abbrev MmapFlags := BitVec 32

def contains {w : ℕ} (flags other : BitVec w) : Bool := flags &&& other == other
def intersects {w : ℕ} (flags other : BitVec w) : Bool := flags &&& other != 0#w
def remove {w : ℕ} (flags other : BitVec w) : BitVec w := flags &&& ~~~other

namespace MapPermission
def R : MapPermission := 1#4
def W : MapPermission := 2#4
def X : MapPermission := 4#4
def U : MapPermission := 8#4
end MapPermission

namespace PTEFlags
def V : PTEFlags := 1#9
def R : PTEFlags := 2#9
def W : PTEFlags := 4#9
def X : PTEFlags := 8#9
def U : PTEFlags := 16#9
def A : PTEFlags := 64#9
def D : PTEFlags := 128#9
def COW : PTEFlags := 256#9
end PTEFlags

namespace PagePermission
def R : PagePermission := 2#5
def W : PagePermission := 4#5
def X : PagePermission := 8#5
def U : PagePermission := 16#5
def all : PagePermission := 30#5
end PagePermission

namespace MmapProt
def PROT_NONE : MmapProt := 0#3
def PROT_READ : MmapProt := 1#3
def PROT_WRITE : MmapProt := 2#3
def PROT_EXEC : MmapProt := 4#3
end MmapProt

namespace MmapFlags
def MAP_SHARED : MmapFlags := 1#32
def MAP_PRIVATE : MmapFlags := 2#32
def MAP_FIXED : MmapFlags := 16#32
def MAP_ANONYMOUS : MmapFlags := 32#32
def MAP_STACK : MmapFlags := 131072#32
end MmapFlags

def mmapFlagsAll : MmapFlags :=
  MmapFlags.MAP_SHARED ||| MmapFlags.MAP_PRIVATE ||| MmapFlags.MAP_FIXED |||
    MmapFlags.MAP_ANONYMOUS ||| MmapFlags.MAP_STACK

def mmapFlagsFromBitsTruncate (bits : BitVec 32) : MmapFlags := bits &&& mmapFlagsAll

def mmapProtFromBitsTruncate (bits : BitVec 32) : MmapProt := bits.setWidth 3

/-- `None` when a bit outside the declared ones is set. -/
def mmapProtFromBits (bits : BitVec 32) : Option MmapProt :=
  if (bits.setWidth 3).setWidth 32 == bits then some (bits.setWidth 3) else none

def pagePermissionFrom (flags : MapPermission) : PagePermission :=
  (if contains flags MapPermission.R then PagePermission.R else 0#5) |||
    (if contains flags MapPermission.W then PagePermission.W else 0#5) |||
    (if contains flags MapPermission.X then PagePermission.X else 0#5) |||
    (if contains flags MapPermission.U then PagePermission.U else 0#5)

def pteFlagsFrom (value : MapPermission) : PTEFlags :=
  (if contains value MapPermission.R then PTEFlags.R else 0#9) |||
    (if contains value MapPermission.W then PTEFlags.W else 0#9) |||
    (if contains value MapPermission.X then PTEFlags.X else 0#9) |||
    (if contains value MapPermission.U then PTEFlags.U else 0#9)

def mapPermissionFrom (value : MmapProt) : MapPermission :=
  (if contains value MmapProt.PROT_EXEC then MapPermission.X else 0#4) |||
    (if contains value MmapProt.PROT_WRITE then MapPermission.W else 0#4) |||
    (if contains value MmapProt.PROT_READ then MapPermission.R else 0#4) |||
    (if !contains value MmapProt.PROT_NONE then MapPermission.U else 0#4)

theorem contains_protNone (value : MmapProt) : contains value MmapProt.PROT_NONE = true := by
  simp [contains,MmapProt.PROT_NONE]

end DuckOs.PermissionFlags
