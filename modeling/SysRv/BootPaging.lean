import SysRv.Boot

/-!
# The address space of the boot root table

Two gigapages of the same physical GiB: its identity map, which lets `_start` go on behind
its write of `satp`, and the kernel's virtual addresses.
-/

namespace SysRv.Boot
open Function Rv64 Sv39 BootMap ReservedMemory

/-- An entry that `_start` writes, with A and D as accesses leave them. -/
def IsBootEntry (pte : PageTableEntry) : Prop :=
  ∃ bits ∈ [0#64, rv64PteAccessed, rv64PteAccessed ||| rv64PteDirty],
    pte = gigapage bootStart ||| bits

/-- The root table in its two entries and the rest. -/
structure BootTable (root : Addr) (mem : Mem) : Prop where
  identity : IsBootEntry (mem (pteAddress root 2))
  kernel : IsBootEntry (mem (pteAddress root 510))
  other : ∀ index < 512, index ≠ 2 → index ≠ 510 → mem (pteAddress root index) = 0#64

/-- Where the two gigapages lead. -/
def bootPhysical (va : Addr) : Option Addr :=
  if 0x80000000 ≤ va.toNat ∧ va.toNat < 0xC0000000 then some va
  else if 0xFFFFFFFF80000000 ≤ va.toNat ∧ va.toNat < 0xFFFFFFFFC0000000 then
    some (va - kernelVaPaOffset)
  else none

/-- The memory with A, and D for a store, set in the entry that leads to an address. -/
def touch (root : Addr) (k : Access) (mem : Mem) (va : Addr) : Mem :=
  update mem (pteAddress root (vpnField va 2)) (mem (pteAddress root (vpnField va 2)) ||| marks k)

section Entries

variable {pte : PageTableEntry}

theorem IsBootEntry.leaf (h : IsBootEntry pte) :
    flagV pte = true ∧ flagR pte = true ∧ AlignedLeaf pte 2 ∧ ∀ k, permits pte k = true := by
  obtain ⟨bits, hbits, rfl⟩ := h
  simp only [List.mem_cons, List.not_mem_nil, or_false] at hbits
  rcases hbits with rfl | rfl | rfl <;>
    exact ⟨by decide, by decide, by decide, fun k => by cases k <;> decide⟩

theorem IsBootEntry.ppn (h : IsBootEntry pte) : ppn pte = 0x80000 := by
  obtain ⟨bits, hbits, rfl⟩ := h
  simp only [List.mem_cons, List.not_mem_nil, or_false] at hbits
  rcases hbits with rfl | rfl | rfl <;> decide

theorem IsBootEntry.touched (h : IsBootEntry pte) (k : Access) : IsBootEntry (pte ||| marks k) := by
  obtain ⟨bits, hbits, rfl⟩ := h
  refine ⟨bits ||| marks k, ?_, BitVec.or_assoc ..⟩
  simp only [List.mem_cons, List.not_mem_nil, or_false] at hbits
  rcases hbits with rfl | rfl | rfl <;> cases k <;> decide

theorem IsBootEntry.physical (h : IsBootEntry pte) (va : Addr) :
    physical pte 2 va = BitVec.ofNat 64 (0x80000000 + va.toNat % 2 ^ 30) := by
  rw [Sv39.physical, h.ppn]

end Entries

section Table

variable {root va : Addr} {mem : Mem}

theorem vpnField_lt (va : Addr) (level : ℕ) : vpnField va level < 512 := Nat.mod_lt _ (by decide)

theorem pteAddress_inj {i j : ℕ} (hi : i < 512) (hj : j < 512)
    (h : pteAddress root i = pteAddress root j) : i = j := by
  have hmul : BitVec.ofNat 64 (8 * i) = BitVec.ofNat 64 (8 * j) := by simpa [pteAddress] using h
  have hnat := congrArg BitVec.toNat hmul
  simp only [BitVec.toNat_ofNat] at hnat
  omega

theorem vpnField_two (va : Addr) : vpnField va 2 = va.toNat / 2 ^ 30 % 512 := rfl

/-- The mapped addresses are canonical, and those with the root index 2 or 510. -/
theorem bootPhysical_eq (va : Addr) : bootPhysical va =
    if Canonical va ∧ (vpnField va 2 = 2 ∨ vpnField va 2 = 510) then
      some (BitVec.ofNat 64 (0x80000000 + va.toNat % 2 ^ 30))
    else none := by
  have hlt := va.isLt
  simp only [canonical_iff, vpnField_two, bootPhysical]
  by_cases hlow : 0x80000000 ≤ va.toNat ∧ va.toNat < 0xC0000000
  · rw [if_pos hlow, if_pos (by omega)]
    congr 1
    apply BitVec.eq_of_toNat_eq
    rw [BitVec.toNat_ofNat]
    omega
  · by_cases hhigh : 0xFFFFFFFF80000000 ≤ va.toNat ∧ va.toNat < 0xFFFFFFFFC0000000
    · rw [if_neg hlow, if_pos hhigh, if_pos (by omega)]
      have hoffset : kernelVaPaOffset.toNat = 0xFFFFFFFF00000000 := by decide
      congr 1
      apply BitVec.eq_of_toNat_eq
      rw [BitVec.toNat_ofNat, BitVec.toNat_sub, hoffset]
      omega
    · rw [if_neg hlow, if_neg hhigh, if_neg (by omega)]

theorem vpnField_of_bootPhysical (hva : bootPhysical va ≠ none) :
    vpnField va 2 = 2 ∨ vpnField va 2 = 510 := by
  rw [bootPhysical_eq] at hva
  by_contra hno
  exact hva (if_neg fun h => hno h.2)

theorem touch_apply (k : Access) (a : Addr) : touch root k mem va a =
    if a = pteAddress root (vpnField va 2) then mem a ||| marks k else mem a := by
  rw [touch, update_apply]
  split
  · rename_i heq
    rw [heq]
  · rfl

theorem BootTable.touch (h : BootTable root mem) (k : Access) (hva : bootPhysical va ≠ none) :
    BootTable root (touch root k mem va) := by
  have hentry : ∀ index, IsBootEntry (mem (pteAddress root index)) →
      IsBootEntry (Boot.touch root k mem va (pteAddress root index)) := fun index hindex => by
    rw [touch_apply]
    split
    · exact hindex.touched k
    · exact hindex
  refine ⟨hentry 2 h.identity, hentry 510 h.kernel, fun index hindex h₂ h₅₁₀ => ?_⟩
  rw [touch_apply, if_neg, h.other index hindex h₂ h₅₁₀]
  intro heq
  have hsame := pteAddress_inj hindex (vpnField_lt va 2) heq
  rcases vpnField_of_bootPhysical hva with hvpn | hvpn
  · exact h₂ (hsame.trans hvpn)
  · exact h₅₁₀ (hsame.trans hvpn)

theorem BootTable.update (h : BootTable root mem) {pa : Addr}
    (houtside : ∀ index < 512, pa ≠ pteAddress root index) (v : Word) :
    BootTable root (update mem pa v) := by
  have hkept : ∀ index < 512,
      Function.update mem pa v (pteAddress root index) = mem (pteAddress root index) :=
    fun index hindex => update_of_ne (Ne.symm (houtside index hindex)) _ _
  refine ⟨?_, ?_, fun index hindex h₂ h₅₁₀ => ?_⟩
  · rw [hkept 2 (by decide)]
    exact h.identity
  · rw [hkept 510 (by decide)]
    exact h.kernel
  · rw [hkept index hindex]
    exact h.other index hindex h₂ h₅₁₀

theorem BootTable.translate (h : BootTable root mem) {satp : Word} (hmode : satpMode satp = 8)
    (hroot : satpRoot satp = root) (k : Access) (va : Addr) :
    (mmu true).translate satp k mem va =
      (bootPhysical va).map fun pa => (pa, Boot.touch root k mem va) := by
  have hpaged : ¬ satpMode satp = 0 := by rw [hmode]; decide
  simp only [mmu, if_neg hpaged, hroot]
  rw [bootPhysical_eq]
  by_cases hcan : Canonical va
  · by_cases hvpn : vpnField va 2 = 2 ∨ vpnField va 2 = 510
    · have hentry : IsBootEntry (mem (pteAddress root (vpnField va 2))) := by
        rcases hvpn with hvpn | hvpn <;> rw [hvpn]
        · exact h.identity
        · exact h.kernel
      obtain ⟨hvalid, hread, haligned, hpermits⟩ := hentry.leaf
      rw [leaf_root hcan rfl hvalid hread haligned, if_pos ⟨hcan, hvpn⟩]
      simp [hpermits, hentry.physical, Boot.touch]
    · have hzero := h.other _ (vpnField_lt va 2) (fun h₂ => hvpn (.inl h₂)) (fun h₂ => hvpn (.inr h₂))
      rw [leaf_none (by rw [hzero]; decide), if_neg fun hboth => hvpn hboth.2]
      rfl
  · rw [leaf, if_neg hcan, if_neg fun hboth => hcan hboth.1]
    rfl

theorem touch_outside {pa : Addr} (houtside : ∀ index < 512, pa ≠ pteAddress root index)
    (k : Access) : touch root k mem va pa = mem pa := by
  rw [touch_apply, if_neg (houtside _ (vpnField_lt va 2))]

end Table

/-- Memory without tables, at the addresses of the two gigapages. -/
def bootFlat : Mmu where
  accepts := (mmu true).accepts
  translate _ _ mem va := (bootPhysical va).map fun pa => (pa, mem)

/-- The memory under a boot table is the flat one besides the table. -/
structure SameBesides (root : Addr) (mem flat : Mem) : Prop where
  table : BootTable root mem
  same : ∀ a, (∀ index < 512, a ≠ pteAddress root index) → mem a = flat a

/-- An access that does not lead into the table. -/
def AvoidsTable (root : Addr) (r : Reference) : Prop :=
  ∀ pa, bootPhysical r.va = some pa → ∀ index < 512, pa ≠ pteAddress root index

section Flat

variable {root : Addr} {satp : Word} {mem flat : Mem}

theorem SameBesides.touch (h : SameBesides root mem flat) (k : Access) {va : Addr}
    (hva : bootPhysical va ≠ none) : SameBesides root (touch root k mem va) flat :=
  ⟨h.table.touch k hva, fun a ha => by rw [touch_outside ha, h.same a ha]⟩

theorem SameBesides.update (h : SameBesides root mem flat) {pa : Addr}
    (houtside : ∀ index < 512, pa ≠ pteAddress root index) (v : Word) :
    SameBesides root (update mem pa v) (update flat pa v) :=
  ⟨h.table.update houtside v, fun a ha => by simp only [update_apply, h.same a ha]⟩

theorem SameBesides.refer (h : SameBesides root mem flat) (hmode : satpMode satp = 8)
    (hroot : satpRoot satp = root) {r : Reference} (hr : AvoidsTable root r) :
    Option.Rel (fun p q => p.1 = q.1 ∧ SameBesides root p.2 q.2) ((mmu true).refer satp mem r)
      (bootFlat.refer satp flat r) := by
  simp only [Mmu.refer, h.table.translate hmode hroot, bootFlat]
  cases hpa : bootPhysical r.va with
  | none => exact .none
  | some pa =>
    have houtside := hr pa hpa
    have hsome : bootPhysical r.va ≠ none := by simp [hpa]
    have htouch := h.touch r.kind hsome
    cases hkind : r.kind <;> rw [hkind] at htouch
    · exact .some ⟨htouch.same pa houtside, htouch⟩
    · exact .some ⟨htouch.same pa houtside, htouch⟩
    · exact .some ⟨rfl, htouch.update houtside r.value⟩

theorem SameBesides.refers (h : SameBesides root mem flat) (hmode : satpMode satp = 8)
    (hroot : satpRoot satp = root) {rs : List Reference} (hrs : ∀ r ∈ rs, AvoidsTable root r) :
    ((mmu true).refers satp mem rs).1 = (bootFlat.refers satp flat rs).1 ∧
      SameBesides root ((mmu true).refers satp mem rs).2 (bootFlat.refers satp flat rs).2 :=
  refers_of_refer (fun _ hr _ _ hsame => hsame.refer hmode hroot (hrs _ hr)) h

end Flat

end SysRv.Boot
