import RocketVm.Laws.Vm

/-!
# Loading an image

What the loader makes of a file, and how its bound fits the memory map and the fetch. The loader
accepts what fits the memory, the memory map gives programs the lower half of it, and the fetch
stops one word short of that half: `load_mapped_iff` says for which images the three agree.
-/

namespace RocketVm

open Lib

/-! ## The loader -/

/-- What memory holds after an image was copied to its start. -/
theorem RvmMemory.byte_copy_all (mem : RvmMemory) {image : List Byte} (a : Nat)
    (size : image.length ≤ RVM_MEMORY_SIZE) :
    (mem.copy image).byte a = if a < image.length then image.getD a 0 else mem.byte a := by
  have fits : image.length ≤ 0x10000 := size
  by_cases inside : a < 0x10000
  · simp only [RvmMemory.byte, ByteStore.get, RvmMemory.copy, inside, ↓reduceDIte,
      RVM_MEMORY_PROGRAM_START, Nat.zero_le, true_and, Nat.zero_add, Nat.sub_zero]
  · have past : ¬ a < image.length := by omega
    simp only [RvmMemory.byte, ByteStore.get, inside, ↓reduceDIte, past, ↓reduceIte]

/-- The start of memory after an image was copied there. -/
theorem RvmMemory.byte_copy (mem : RvmMemory) {image : List Byte} {a : Nat} {b : Byte}
    (h : image[a]? = some b) (size : image.length ≤ RVM_MEMORY_SIZE) :
    (mem.copy image).byte a = b := by
  obtain ⟨bound, rfl⟩ := List.getElem?_eq_some_iff.mp h
  rw [mem.byte_copy_all a size, if_pos bound]
  exact List.getD_eq_getElem _ _ bound

/-- The words of an image, where they are after it was copied. -/
theorem RvmMemory.word_copy (mem : RvmMemory) {ws : List Word} {i : Nat} {w : Word}
    (h : ws[i]? = some w) (size : (wordsToBytes ws).length ≤ RVM_MEMORY_SIZE) :
    (mem.copy (wordsToBytes ws)).word (2 * i) = w := by
  obtain ⟨low, high⟩ := getElem?_wordsToBytes h
  have first := mem.byte_copy low size
  have second := mem.byte_copy high size
  simp only [RvmMemory.byte] at first second
  rw [RvmMemory.word, ByteStore.getWord, first, second, ofBytes_bytes]

/-- The reader answers with the bytes of any file but the empty one. -/
theorem rvmIoReadFile_ok {image : List Byte} (nonempty : image ≠ []) :
    rvmIoReadFile { content := image } = some image := by
  have : ¬ image.length = 0 := fun h => nonempty (List.length_eq_zero_iff.mp h)
  simp [rvmIoReadFile, this]

/-- A non-empty image that fits the memory is loaded. -/
theorem rvmVmLoad_ok (vm : RvmVm) {image : List Byte} (nonempty : image ≠ [])
    (size : image.length ≤ RVM_MEMORY_SIZE) :
    rvmVmLoad vm { content := image } = (0, { vm with mem := vm.mem.copy image }) := by
  have fits : ¬ image.length > RVM_MEMORY_SIZE - RVM_MEMORY_PROGRAM_START := by
    unfold RVM_MEMORY_PROGRAM_START
    omega
  simp only [rvmVmLoad, rvmIoReadFile_ok nonempty, fits, ↓reduceIte]

/-- Any other image leaves the VM as it was. -/
theorem rvmVmLoad_refused (vm : RvmVm) {image : List Byte}
    (h : image = [] ∨ RVM_MEMORY_SIZE < image.length) :
    rvmVmLoad vm { content := image } = (-1, vm) := by
  by_cases nonempty : image = []
  · rw [nonempty]
    rfl
  · have large : image.length > RVM_MEMORY_SIZE - RVM_MEMORY_PROGRAM_START :=
      h.resolve_left nonempty
    simp only [rvmVmLoad, rvmIoReadFile_ok nonempty, large, ↓reduceIte]

/-! ## The memory map -/

/-- The CPU, its rip set to an address, fetches there. -/
def RvmVm.FetchesAt (vm : RvmVm) (a : Nat) : Prop :=
  (RvmVm.mk (vm.cpu.setRip (BitVec.ofNat 16 a)) vm.mem).pending.isSome = true

theorem RvmVm.fetchesAt_iff {vm : RvmVm} {a : Nat} (running : vm.cpu.halt = false)
    (inside : a < 0x10000) : vm.FetchesAt a ↔ a ≤ 0x7FFD := by
  have address : (BitVec.ofNat 16 a).toNat = a := by
    rw [BitVec.toNat_ofNat]
    exact Nat.mod_eq_of_lt inside
  unfold FetchesAt
  rw [Option.isSome_iff_exists]
  constructor
  · rintro ⟨instr, pending⟩
    exact address ▸ (pending_eq_some.mp pending).2.1
  · intro low
    exact ⟨_, pending_eq_some.mpr ⟨running, address.symm ▸ low, rfl⟩⟩

/-- Loading an image into a fresh VM respects the memory map. -/
structure LoadsMapped (image : List Byte) : Prop where
  accepts : (rvmVmLoad freshVm { content := image }).1 = 0 ↔
    image ≠ [] ∧ RVM_MEMORY_PROGRAM_START + image.length ≤ RVM_MEMORY_PROGRAM_END + 1
  /-- The memory of a loaded VM is the image, then zeros; the CPU is the one of a fresh VM. -/
  success : (rvmVmLoad freshVm { content := image }).1 = 0 →
    (∀ a, (rvmVmLoad freshVm { content := image }).2.mem.byte a = image.getD a 0) ∧
      (rvmVmLoad freshVm { content := image }).2.cpu = freshVm.cpu
  failure : (rvmVmLoad freshVm { content := image }).1 ≠ 0 →
    (rvmVmLoad freshVm { content := image }).2 = freshVm
  /-- Every word of a loaded image can be fetched. -/
  fetched : (rvmVmLoad freshVm { content := image }).1 = 0 → ∀ i, 2 * i + 1 < image.length →
    (rvmVmLoad freshVm { content := image }).2.FetchesAt (2 * i)

/-- A fresh VM with an image holds the image and zeros after it. -/
theorem byte_copy_fresh {image : List Byte} (size : image.length ≤ RVM_MEMORY_SIZE) (a : Nat) :
    (freshVm.mem.copy image).byte a = image.getD a 0 := by
  have zero : freshVm.mem.byte a = 0 := by
    simp only [RvmMemory.byte, ByteStore.get, freshVm, dite_eq_ite, ite_self]
  rw [RvmMemory.byte_copy_all _ _ size, zero]
  by_cases inside : a < image.length
  · rw [if_pos inside]
  · rw [if_neg inside, List.getD_eq_default _ _ (Nat.not_lt.mp inside)]

/-- Among the images that are loaded, those shorter than the program region respect the memory map:
a larger one does not fit, and the last word of the region is out of reach of the fetch. -/
theorem loadsMapped_of_loads {image : List Byte} (nonempty : image ≠ [])
    (size : image.length ≤ RVM_MEMORY_SIZE) : LoadsMapped image ↔ image.length < 0x8000 := by
  have ok := rvmVmLoad_ok freshVm nonempty size
  constructor
  · intro mapped
    have small := (mapped.accepts.mp (by rw [ok])).2
    unfold RVM_MEMORY_PROGRAM_START RVM_MEMORY_PROGRAM_END at small
    refine Nat.lt_of_le_of_ne (by omega) fun full => ?_
    -- the word at 0x7FFE
    have last := mapped.fetched (by rw [ok]) 0x3FFF (by omega)
    rw [ok, RvmVm.fetchesAt_iff rfl (by decide)] at last
    omega
  · intro small
    refine ⟨?_, fun _ => ?_, fun fails => ?_, fun _ i inside => ?_⟩
    · rw [ok]
      unfold RVM_MEMORY_PROGRAM_START RVM_MEMORY_PROGRAM_END
      exact iff_of_true rfl ⟨nonempty, by omega⟩
    · rw [ok]
      exact ⟨byte_copy_fresh size, rfl⟩
    · rw [ok] at fails
      exact absurd rfl fails
    · rw [ok, RvmVm.fetchesAt_iff rfl (by omega)]
      omega

/-- An image that is refused leaves the VM alone. -/
theorem loadsMapped_of_refused {image : List Byte}
    (refused : image = [] ∨ RVM_MEMORY_SIZE < image.length) : LoadsMapped image := by
  have failed := rvmVmLoad_refused freshVm refused
  have nonzero : ¬ (rvmVmLoad freshVm { content := image }).1 = 0 := by
    rw [failed]
    show ¬ (-1 : Int) = 0
    decide
  refine ⟨iff_of_false nonzero ?_, fun ok => absurd ok nonzero, fun _ => ?_,
    fun ok => absurd ok nonzero⟩
  · rintro ⟨nonempty, small⟩
    have large := refused.resolve_left nonempty
    unfold RVM_MEMORY_PROGRAM_START RVM_MEMORY_PROGRAM_END at small
    unfold RVM_MEMORY_SIZE at large
    omega
  · rw [failed]

/-- **Which images respect the memory map**: those shorter than the program region, and those the
memory cannot hold. The loader accepts everything up to the size of the memory, and the last word
of the program region is out of reach of the fetch. -/
theorem load_mapped_iff (image : List Byte) :
    LoadsMapped image ↔ image.length < 0x8000 ∨ 0x10000 < image.length := by
  by_cases empty : image = []
  · refine iff_of_true (loadsMapped_of_refused (.inl empty)) (.inl ?_)
    rw [empty]
    decide
  · by_cases large : RVM_MEMORY_SIZE < image.length
    · exact iff_of_true (loadsMapped_of_refused (.inr large)) (.inr large)
    · rw [loadsMapped_of_loads empty (Nat.not_lt.mp large)]
      exact (or_iff_left large).symm

/-- An image one byte longer than the program region is loaded. -/
theorem oversized_image_loads : ¬ ∀ image, LoadsMapped image := by
  intro mapped
  have length : (List.replicate 0x8001 (0 : Byte)).length = 0x8001 := List.length_replicate
  have nonempty : List.replicate 0x8001 (0 : Byte) ≠ [] := by
    intro empty
    rw [empty] at length
    cases length
  have size : (List.replicate 0x8001 (0 : Byte)).length ≤ RVM_MEMORY_SIZE := by
    rw [length]
    decide
  have small := ((mapped _).accepts.mp (by rw [rvmVmLoad_ok freshVm nonempty size])).2
  rw [length] at small
  exact absurd small (by decide)

end RocketVm
