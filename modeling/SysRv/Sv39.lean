import SysRv.KernelTypes

/-!
# The Sv39 page-table walk

`sv39_vm.c` over a memory of 8-byte page-table entries. The bit positions, the mask and the
number of levels come from a header that is not part of the sources, so they are a parameter;
`Rv64VmHeader.IsSv39` says what the walk relies on.
-/

namespace SysRv.Sv39

/-- The constants of `rv64_vm.h` that the walk uses. -/
structure Rv64VmHeader where
  vpn2Bitp : ℕ
  vpn1Bitp : ℕ
  vpn0Bitp : ℕ
  vpnMask : BitVec 64
  maxLevels : ℕ

/-- The constants of Sv39: three levels of nine bits above a 12-bit page offset. -/
structure Rv64VmHeader.IsSv39 (h : Rv64VmHeader) : Prop where
  vpn2Bitp : h.vpn2Bitp = 30
  vpn1Bitp : h.vpn1Bitp = 21
  vpn0Bitp : h.vpn0Bitp = 12
  vpnMask : h.vpnMask = 0x1FF#64
  maxLevels : h.maxLevels = 3

abbrev PageTableEntry := BitVec 64

def rv64PteValid : BitVec 64 := 1#64 <<< 0
def rv64PteRead : BitVec 64 := 1#64 <<< 1
def rv64PteWrite : BitVec 64 := 1#64 <<< 2
def rv64PteExecute : BitVec 64 := 1#64 <<< 3

def rv64GetVPN2 (h : Rv64VmHeader) (va : Addr) : BitVec 64 := (va >>> h.vpn2Bitp) &&& h.vpnMask

def rv64GetVPN1 (h : Rv64VmHeader) (va : Addr) : BitVec 64 := (va >>> h.vpn1Bitp) &&& h.vpnMask

def rv64GetVPN0 (h : Rv64VmHeader) (va : Addr) : BitVec 64 := (va >>> h.vpn0Bitp) &&& h.vpnMask

def rv64PTEToPhysAddr (pte : PageTableEntry) : Addr := ((pte >>> 10) &&& 0xFFFFFFFFFFF#64) <<< 12

def srvHalIsPTEValid (pte : PageTableEntry) : Bool := pte &&& rv64PteValid ≠ 0#64

def srvHalIsPTELeaf (pte : PageTableEntry) : Bool :=
  let areRwxBitsSet := pte &&& (rv64PteRead ||| rv64PteWrite ||| rv64PteExecute) ≠ 0#64
  let isValid := pte &&& rv64PteValid ≠ 0#64
  areRwxBitsSet && isValid

def entryAddress (table : Addr) (index : BitVec 64) : Addr := table + 8#64 * index

/-- The array `vpn` of the walk; elements past the initialisers are zero. -/
def vpn (h : Rv64VmHeader) (va : Addr) (level : ℕ) : BitVec 64 :=
  [rv64GetVPN0 h va, rv64GetVPN1 h va, rv64GetVPN2 h va].getD level 0#64

def walkLevels (h : Rv64VmHeader) (mem : Addr → PageTableEntry) (va : Addr) : ℕ → Addr → Addr
  | 0, _ => NULL
  | level + 1, currTable =>
    let pte := entryAddress currTable (vpn h va level)
    if srvHalIsPTEValid (mem pte) then
      if srvHalIsPTELeaf (mem pte) then pte
      else walkLevels h mem va level (rv64PTEToPhysAddr (mem pte))
    else NULL

def srvHalWalkPageTable (h : Rv64VmHeader) (mem : Addr → PageTableEntry) (pageTable va : Addr) :
    Addr :=
  walkLevels h mem va h.maxLevels pageTable

end SysRv.Sv39
