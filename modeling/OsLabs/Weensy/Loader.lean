import OsLabs.Weensy.CopyStack

/-!
# WeensyOS: the program loader

`program_loader` reads an ELF image that lies in memory and places its loadable
segments one after the other; `mpos-loader.c` and `schedos-loader.c` hold the
same function. `loaded_iff`: when a segment's bytes arrive at its addresses.
-/

namespace OsLabs.Weensy.Loader

open Mpos (memcpy memcpyLoop_eq)

def pageSize : UInt32 := 4096
def elfMagic : UInt32 := 0x464C457F
def elfProgLoad : UInt32 := 1

/-- What the loader reads of a `struct Proghdr`. -/
structure Proghdr where
  pType : UInt32
  pOffset : UInt32
  pVa : UInt32
  pFilesz : UInt32
  pMemsz : UInt32

/-! ## The code -/

def word (memory : Mem) (a : UInt32) : UInt32 := UInt32.ofNat (memory.get32 a.toNat)

def half (memory : Mem) (a : UInt32) : Nat :=
  (memory a.toNat).toNat + 2 ^ 8 * (memory (a.toNat + 1)).toNat

def eMagic (memory : Mem) (elf : UInt32) : UInt32 := word memory elf
def eEntry (memory : Mem) (elf : UInt32) : UInt32 := word memory (elf + 24)
def ePhoff (memory : Mem) (elf : UInt32) : UInt32 := word memory (elf + 28)
def ePhnum (memory : Mem) (elf : UInt32) : Nat := half memory (elf + 44)

def proghdr (memory : Mem) (ph : UInt32) : Proghdr where
  pType := word memory ph
  pOffset := word memory (ph + 4)
  pVa := word memory (ph + 8)
  pFilesz := word memory (ph + 16)
  pMemsz := word memory (ph + 20)

def copyseg (memory : Mem) (dst src filesz memsz : UInt32) : Mem :=
  let endVa := dst + filesz
  let memsz := memsz + dst
  let va := dst &&& ~~~(pageSize - 1)
  let memory := memcpy memory va src (endVa - va)
  -- clear bss segment
  memory.fill endVa.toNat (memsz.toNat - endVa.toNat) 0

/-- The loop over the program headers. It is left after `e_phnum` turns at the latest, `n` are
to go. -/
def loadLoop (elf eph : UInt32) (memory : Mem) (ph : UInt32) : Nat → Mem
  | 0 => memory
  | n + 1 =>
    if ph < eph then
      let p := proghdr memory ph
      let memory :=
        if p.pType = elfProgLoad then
          copyseg memory p.pVa (elf + p.pOffset) p.pFilesz p.pMemsz
        else memory
      loadLoop elf eph memory (ph + 32) n
    else memory

/-- `ramimages` are the addresses where the images begin. The memory and the entry point; `none`
where the loader panics. -/
def programLoader (ramimages : List UInt32) (memory : Mem) (programId : Int) :
    Option (Mem × UInt32) :=
  if programId < 0 ∨ programId ≥ ramimages.length then none
  else
    let elf := ramimages.getD programId.toNat 0
    if eMagic memory elf ≠ elfMagic then none
    else
      let ph := elf + ePhoff memory elf
      let eph := ph + 32 * UInt32.ofNat (ePhnum memory elf)
      let memory := loadLoop elf eph memory ph (ePhnum memory elf)
      some (memory, eEntry memory elf)

/-! ## Images -/

/-- `ph` is the `i`-th program header of the image at `elf`. -/
def header (memory : Mem) (elf : UInt32) (i : Nat) : Proghdr :=
  proghdr memory (elf + ePhoff memory elf + 32 * UInt32.ofNat i)

/-- The pages of a segment are `firstPage`, ..., `endPage - 1`. -/
def Proghdr.firstPage (p : Proghdr) : Nat := p.pVa.toNat / 4096
def Proghdr.endPage (p : Proghdr) : Nat := (p.pVa.toNat + p.pMemsz.toNat + 4095) / 4096

/-- The bytes from the start of its first page to its address: how far `copyseg` moves the
destination back. -/
def Proghdr.shift (p : Proghdr) : Nat := p.pVa.toNat % 4096

/-- A segment that can be loaded from the `extent` bytes at `elf`. -/
structure Proghdr.Fits (p : Proghdr) (elf : UInt32) (extent : Nat) : Prop where
  filesz_le : p.pFilesz.toNat ≤ p.pMemsz.toNat
  noWrap : p.pVa.toNat + p.pMemsz.toNat < 2 ^ 32
  source : p.pOffset.toNat + p.shift + p.pFilesz.toNat ≤ extent
  apart : p.endPage * 4096 ≤ elf.toNat ∨ elf.toNat + extent ≤ p.firstPage * 4096

instance (p : Proghdr) (elf : UInt32) (extent : Nat) : Decidable (p.Fits elf extent) :=
  decidable_of_iff
    (p.pFilesz.toNat ≤ p.pMemsz.toNat ∧ p.pVa.toNat + p.pMemsz.toNat < 2 ^ 32 ∧
      p.pOffset.toNat + p.shift + p.pFilesz.toNat ≤ extent ∧
      (p.endPage * 4096 ≤ elf.toNat ∨ elf.toNat + extent ≤ p.firstPage * 4096))
    ⟨fun ⟨h1, h2, h3, h4⟩ => ⟨h1, h2, h3, h4⟩, fun ⟨h1, h2, h3, h4⟩ => ⟨h1, h2, h3, h4⟩⟩

/-- A well-formed image at `elf`, of which the loader reads `extent` bytes. No segment is loaded
over these, and no two segments share a page. -/
structure Image (memory : Mem) (elf : UInt32) (extent : Nat) : Prop where
  magic : eMagic memory elf = elfMagic
  noWrap : elf.toNat + extent < 2 ^ 32
  headers : (ePhoff memory elf).toNat + 32 * ePhnum memory elf ≤ extent
  segment : ∀ i < ePhnum memory elf, (header memory elf i).pType = elfProgLoad →
    (header memory elf i).Fits elf extent
  disjoint : ∀ i j, i < j → j < ePhnum memory elf →
    (header memory elf i).pType = elfProgLoad → (header memory elf j).pType = elfProgLoad →
      (header memory elf i).endPage ≤ (header memory elf j).firstPage ∨
        (header memory elf j).endPage ≤ (header memory elf i).firstPage

/-- The segment is at its addresses in `memory'`: the image's bytes, then zeros. -/
def Placed (memory : Mem) (elf : UInt32) (p : Proghdr) (memory' : Mem) : Prop :=
  (∀ k < p.pFilesz.toNat,
    memory' (p.pVa.toNat + k) = memory (elf.toNat + p.pOffset.toNat + k)) ∧
  ∀ k, p.pFilesz.toNat ≤ k → k < p.pMemsz.toNat → memory' (p.pVa.toNat + k) = 0

/-- Every loadable segment of the image is placed. -/
def Loaded (memory : Mem) (elf : UInt32) (memory' : Mem) : Prop :=
  ∀ i < ePhnum memory elf, (header memory elf i).pType = elfProgLoad →
    Placed memory elf (header memory elf i) memory'

/-- Every byte of the segment equals the byte of the image that comes `shift` places later. -/
def Proghdr.Repeats (p : Proghdr) (memory : Mem) (elf : UInt32) : Prop :=
  ∀ k < p.pFilesz.toNat,
    memory (elf.toNat + p.pOffset.toNat + p.shift + k) = memory (elf.toNat + p.pOffset.toNat + k)

/-- What `copyseg` leaves at the segment's addresses: the bytes of the image that come `shift`
places later, then zeros. -/
def PlacedLate (memory : Mem) (elf : UInt32) (p : Proghdr) (memory' : Mem) : Prop :=
  (∀ k < p.pFilesz.toNat,
    memory' (p.pVa.toNat + k) = memory (elf.toNat + p.pOffset.toNat + p.shift + k)) ∧
  ∀ k, p.pFilesz.toNat ≤ k → k < p.pMemsz.toNat → memory' (p.pVa.toNat + k) = 0

variable {memory mem : Mem} {elf dst src filesz memsz : UInt32} {p : Proghdr} {extent i n : Nat}

/-! ## One segment -/

theorem toNat_roundDown (dst : UInt32) :
    (dst &&& ~~~(pageSize - 1)).toNat = dst.toNat / 4096 * 4096 := by
  have hmask : (~~~(pageSize - 1)).toNat = (2 ^ 20 - 1) <<< 12 := by decide
  have hdst := dst.toNat_lt
  rw [UInt32.toNat_and, hmask, show dst.toNat / 4096 * 4096 = dst.toNat >>> 12 <<< 12 by
    rw [Nat.shiftRight_eq_div_pow, Nat.shiftLeft_eq]]
  apply Nat.eq_of_testBit_eq
  intro i
  rw [Nat.testBit_and, Nat.testBit_shiftLeft, Nat.testBit_shiftLeft, Nat.testBit_shiftRight,
    Nat.testBit_two_pow_sub_one]
  by_cases hi : 12 ≤ i
  · rw [Nat.add_sub_cancel' hi]
    by_cases hlt : i < 32
    · simp [hi, show i - 12 < 20 by omega]
    · have hbit : dst.toNat.testBit i = false :=
        Nat.testBit_lt_two_pow (Nat.lt_of_lt_of_le hdst
          (Nat.pow_le_pow_right (by decide) (by omega)))
      simp [hbit]
  · simp [hi]

variable (memory src) in
/-- `copyseg` for a segment that neither wraps around nor reaches its source. -/
theorem copyseg_apply (hfile : filesz.toNat ≤ memsz.toNat)
    (hwrap : dst.toNat + memsz.toNat < 2 ^ 32)
    (hsrc : src.toNat + dst.toNat % 4096 + filesz.toNat < 2 ^ 32)
    (hsep : dst.toNat + filesz.toNat ≤ src.toNat ∨
      src.toNat + dst.toNat % 4096 + filesz.toNat ≤ dst.toNat / 4096 * 4096) (x : Nat) :
    copyseg memory dst src filesz memsz x =
      if dst.toNat + filesz.toNat ≤ x ∧ x < dst.toNat + memsz.toNat then 0
      else if dst.toNat / 4096 * 4096 ≤ x ∧ x < dst.toNat + filesz.toNat then
        memory (src.toNat + (x - dst.toNat / 4096 * 4096))
      else memory x := by
  have hva := toNat_roundDown dst
  have hend : (dst + filesz).toNat = dst.toNat + filesz.toNat := by
    rw [UInt32.toNat_add]
    omega
  have hmem : (memsz + dst).toNat = dst.toNat + memsz.toNat := by
    rw [UInt32.toNat_add]
    omega
  have hlen : (dst + filesz - (dst &&& ~~~(pageSize - 1))).toNat =
      dst.toNat % 4096 + filesz.toNat := by
    rw [UInt32.toNat_sub, hva, hend]
    omega
  unfold copyseg memcpy Mem.fill
  rw [hend, hmem, hlen, memcpyLoop_eq (by omega) (by omega) (by omega), hva]
  by_cases hbss : dst.toNat + filesz.toNat ≤ x ∧ x < dst.toNat + memsz.toNat
  · rw [if_pos (by omega), if_pos hbss]
  · rw [if_neg (by omega), if_neg hbss]
    unfold Mem.copy
    by_cases hdata : dst.toNat / 4096 * 4096 ≤ x ∧ x < dst.toNat + filesz.toNat
    · rw [if_pos (by omega), if_pos hdata]
    · rw [if_neg (by omega), if_neg hdata]

/-- Loading a segment writes from the start of its first page to its end, and puts it there late. -/
theorem copyseg_segment (hp : p.Fits elf extent) (hroom : elf.toNat + extent < 2 ^ 32)
    (himage : ∀ x, elf.toNat ≤ x → x < elf.toNat + extent → mem x = memory x) :
    PlacedLate memory elf p (copyseg mem p.pVa (elf + p.pOffset) p.pFilesz p.pMemsz) ∧
      ∀ x, x < p.firstPage * 4096 ∨ p.pVa.toNat + p.pMemsz.toNat ≤ x →
        copyseg mem p.pVa (elf + p.pOffset) p.pFilesz p.pMemsz x = mem x := by
  have hle := hp.filesz_le
  have hwrap := hp.noWrap
  have hsource := hp.source
  have hapart := hp.apart
  unfold Proghdr.shift at hsource
  unfold Proghdr.endPage Proghdr.firstPage at hapart
  have hsrc : (elf + p.pOffset).toNat = elf.toNat + p.pOffset.toNat := by
    rw [UInt32.toNat_add]
    omega
  have happly := copyseg_apply mem (elf + p.pOffset) hle hwrap (by omega) (by omega)
  rw [hsrc] at happly
  refine ⟨⟨?_, ?_⟩, ?_⟩
  · intro k hk
    rw [happly, if_neg (by omega), if_pos (by omega), himage _ (by omega) (by omega)]
    unfold Proghdr.shift
    congr 1
    omega
  · intro k hk hk'
    rw [happly, if_pos (by omega)]
  · intro x hx
    unfold Proghdr.firstPage at hx
    rw [happly, if_neg (by omega), if_neg (by omega)]

/-! ## The loop -/

theorem word_congr {a : UInt32} (h : ∀ x, a.toNat ≤ x → x < a.toNat + 4 → mem x = memory x) :
    word mem a = word memory a := by
  unfold word
  rw [Mem.get32_congr h]

theorem toNat_header (himg : Image memory elf extent) (hi : i ≤ ePhnum memory elf) :
    (elf + ePhoff memory elf + 32 * UInt32.ofNat i).toNat =
      elf.toNat + (ePhoff memory elf).toNat + 32 * i := by
  have hroom := himg.noWrap
  have hheaders := himg.headers
  have hof : (UInt32.ofNat i).toNat = i := UInt32.toNat_ofNat_of_lt' (by unfold UInt32.size; omega)
  rw [UInt32.toNat_add, UInt32.toNat_add, UInt32.toNat_mul, hof]
  show (_ + 32 * i % 2 ^ 32) % 2 ^ 32 = _
  omega

/-- The headers are part of the image. -/
theorem proghdr_congr (himg : Image memory elf extent) (hi : i < ePhnum memory elf)
    (himage : ∀ x, elf.toNat ≤ x → x < elf.toNat + extent → mem x = memory x) :
    proghdr mem (elf + ePhoff memory elf + 32 * UInt32.ofNat i) = header memory elf i := by
  have hroom := himg.noWrap
  have hheaders := himg.headers
  have haddr := toNat_header himg (Nat.le_of_lt hi)
  have hfield (d : UInt32) (hd : d.toNat + 4 ≤ 32) :
      word mem (elf + ePhoff memory elf + 32 * UInt32.ofNat i + d) =
        word memory (elf + ePhoff memory elf + 32 * UInt32.ofNat i + d) := by
    have hsum : (elf + ePhoff memory elf + 32 * UInt32.ofNat i + d).toNat =
        elf.toNat + (ePhoff memory elf).toNat + 32 * i + d.toNat := by
      rw [UInt32.toNat_add, haddr]
      omega
    apply word_congr
    intro x hx hx'
    exact himage x (by omega) (by omega)
  have htype := hfield 0 (by decide)
  rw [UInt32.add_zero] at htype
  unfold header proghdr
  rw [htype, hfield 4 (by decide), hfield 8 (by decide), hfield 16 (by decide),
    hfield 20 (by decide)]

/-- The image is as it was, and the loadable segments before header `i` are placed late. -/
structure LoadedTo (memory : Mem) (elf : UInt32) (extent i : Nat) (mem : Mem) : Prop where
  image : ∀ x, elf.toNat ≤ x → x < elf.toNat + extent → mem x = memory x
  placed : ∀ j < i, (header memory elf j).pType = elfProgLoad →
    PlacedLate memory elf (header memory elf j) mem

/-- One turn of the loop. -/
theorem LoadedTo.turn (himg : Image memory elf extent) (hi : i < ePhnum memory elf)
    (h : LoadedTo memory elf extent i mem) :
    let p := header memory elf i
    LoadedTo memory elf extent (i + 1)
      (if p.pType = elfProgLoad then copyseg mem p.pVa (elf + p.pOffset) p.pFilesz p.pMemsz
        else mem) := by
  intro p
  by_cases hload : p.pType = elfProgLoad
  · rw [if_pos hload]
    have hfits := himg.segment i hi hload
    obtain ⟨hnew, hframe⟩ := copyseg_segment hfits himg.noWrap h.image
    refine ⟨fun x hx hx' => ?_, fun j hj hjload => ?_⟩
    · -- the source lies apart from the pages
      have hapart := hfits.apart
      unfold Proghdr.endPage at hapart
      rw [hframe x (by omega), h.image x hx hx']
    · rcases Nat.lt_succ_iff_lt_or_eq.1 hj with hlt | rfl
      · have hold := h.placed j hlt hjload
        have hjfits := himg.segment j (by omega) hjload
        have hdisj := himg.disjoint j i hlt hi hjload hload
        have hle := hjfits.filesz_le
        unfold Proghdr.endPage Proghdr.firstPage at hdisj
        unfold Proghdr.firstPage at hframe
        refine ⟨fun k hk => ?_, fun k hk hk' => ?_⟩
        · rw [hframe _ (by omega), hold.1 k hk]
        · rw [hframe _ (by omega), hold.2 k hk hk']
      · exact hnew
  · rw [if_neg hload]
    refine ⟨h.image, fun j hj hjload => ?_⟩
    rcases Nat.lt_succ_iff_lt_or_eq.1 hj with hlt | rfl
    · exact h.placed j hlt hjload
    · exact absurd hjload hload

/-- The run of the loop from header `i`. -/
theorem loadLoop_loadedTo (himg : Image memory elf extent) (hn : i + n = ePhnum memory elf)
    (h : LoadedTo memory elf extent i mem) :
    LoadedTo memory elf extent (ePhnum memory elf)
      (loadLoop elf (elf + ePhoff memory elf + 32 * UInt32.ofNat (ePhnum memory elf)) mem
        (elf + ePhoff memory elf + 32 * UInt32.ofNat i) n) := by
  induction n generalizing mem i with
  | zero =>
    rw [Nat.add_zero] at hn
    rw [← hn]
    exact h
  | succ n ih =>
    have hi : i < ePhnum memory elf := by omega
    have hlt : elf + ePhoff memory elf + 32 * UInt32.ofNat i <
        elf + ePhoff memory elf + 32 * UInt32.ofNat (ePhnum memory elf) := by
      rw [UInt32.lt_iff_toNat_lt, toNat_header himg (Nat.le_of_lt hi),
        toNat_header himg (Nat.le_refl _)]
      omega
    have hnext : elf + ePhoff memory elf + 32 * UInt32.ofNat i + 32 =
        elf + ePhoff memory elf + 32 * UInt32.ofNat (i + 1) := by
      apply UInt32.toNat_inj.1
      have hroom := himg.noWrap
      have hheaders := himg.headers
      rw [UInt32.toNat_add, toNat_header himg (Nat.le_of_lt hi), toNat_header himg hi]
      show (_ + 32) % 2 ^ 32 = _
      omega
    unfold loadLoop
    rw [if_pos hlt, proghdr_congr himg hi h.image, hnext]
    exact ih (by omega) (h.turn himg hi)

/-! ## The loader -/

theorem programLoader_loadedTo (himg : Image memory elf extent) {ramimages : List UInt32}
    {programId : Nat} (hid : ramimages[programId]? = some elf) :
    ∃ memory' entryPoint, programLoader ramimages memory programId = some (memory', entryPoint) ∧
      LoadedTo memory elf extent (ePhnum memory elf) memory' := by
  obtain ⟨hlt, -⟩ := List.getElem?_eq_some_iff.1 hid
  have helf : ramimages.getD programId 0 = elf := by
    rw [List.getD_eq_getElem?_getD, hid]
    rfl
  have hzero : elf + ePhoff memory elf + 32 * UInt32.ofNat 0 = elf + ePhoff memory elf :=
    UInt32.add_zero _
  have hrun := loadLoop_loadedTo himg (Nat.zero_add _)
    ⟨fun _ _ _ => rfl, fun j hj => absurd hj (Nat.not_lt_zero j)⟩
  rw [hzero] at hrun
  have hcode : programLoader ramimages memory programId =
      some (loadLoop elf (elf + ePhoff memory elf + 32 * UInt32.ofNat (ePhnum memory elf)) memory
          (elf + ePhoff memory elf) (ePhnum memory elf),
        eEntry (loadLoop elf (elf + ePhoff memory elf + 32 * UInt32.ofNat (ePhnum memory elf))
          memory (elf + ePhoff memory elf) (ePhnum memory elf)) elf) := by
    unfold programLoader
    rw [if_neg (by omega), Int.toNat_natCast, helf]
    exact if_neg (not_not.2 himg.magic)
  exact ⟨_, _, hcode, hrun⟩

theorem LoadedTo.loaded_iff_repeats (h : LoadedTo memory elf extent (ePhnum memory elf) mem) :
    Loaded memory elf mem ↔ ∀ i < ePhnum memory elf,
      (header memory elf i).pType = elfProgLoad → (header memory elf i).Repeats memory elf := by
  constructor
  · intro hloaded i hi hload k hk
    rw [← (h.placed i hi hload).1 k hk, ← (hloaded i hi hload).1 k hk]
  · intro hrepeats i hi hload
    refine ⟨fun k hk => ?_, (h.placed i hi hload).2⟩
    rw [(h.placed i hi hload).1 k hk, hrepeats i hi hload k hk]

/-- A segment that starts on a page boundary is not moved. -/
theorem Proghdr.repeats_of_aligned (h : p.pVa.toNat % 4096 = 0) : p.Repeats memory elf := by
  intro k _
  unfold Proghdr.shift
  rw [h, Nat.add_zero]

/-- **The loader places a segment at its address exactly where the image repeats itself.**
`copyseg` moves the destination back to the start of its page but not the source: for every
well-formed image, all segments are placed exactly when every byte of a loadable segment equals
the byte `p_va % PAGESIZE` places further, as it does in segments that start on a page boundary. -/
theorem loaded_iff (himg : Image memory elf extent) (ramimages : List UInt32) (programId : Nat)
    (hid : ramimages[programId]? = some elf) :
    ∃ memory' entryPoint, programLoader ramimages memory programId = some (memory', entryPoint) ∧
      (Loaded memory elf memory' ↔ ∀ i < ePhnum memory elf,
        (header memory elf i).pType = elfProgLoad → (header memory elf i).Repeats memory elf) := by
  obtain ⟨memory', entryPoint, hrun, hloaded⟩ := programLoader_loadedTo himg hid
  exact ⟨memory', entryPoint, hrun, hloaded.loaded_iff_repeats⟩

/-! An image with one segment of one byte in the file and two in memory, at 0x200000 + `low`. -/

def oneByteImage (low : UInt8) : List UInt8 :=
  [0x7F, 0x45, 0x4C, 0x46] ++ List.replicate 20 0 ++ [0, 0, 0x20, 0] ++ [52, 0, 0, 0] ++
    List.replicate 12 0 ++ [1, 0] ++ List.replicate 6 0 ++
  [1, 0, 0, 0] ++ [84, 0, 0, 0] ++ [low, 0, 0x20, 0] ++ [0, 0, 0, 0] ++ [1, 0, 0, 0] ++
    [2, 0, 0, 0] ++ List.replicate 8 0 ++ [65]

def oneByteMemory (low : UInt8) : Mem := Mem.store (fun _ => 0) 0x100000 (oneByteImage low)

/-- The image has one header, so there is nothing to compare. -/
theorem image_of_one_header (hn : ePhnum memory elf = 1)
    (h : eMagic memory elf = elfMagic ∧ elf.toNat + extent < 2 ^ 32 ∧
      (ePhoff memory elf).toNat + 32 ≤ extent ∧ (header memory elf 0).Fits elf extent) :
    Image memory elf extent := by
  obtain ⟨hmagic, hroom, hheader, hfits⟩ := h
  refine ⟨hmagic, hroom, by omega, fun i hi _ => ?_, fun i j hij hj => by omega⟩
  obtain rfl : i = 0 := by omega
  exact hfits

theorem loaded_oneByte_aligned :
    ∃ memory' entryPoint,
      programLoader [0x100000] (oneByteMemory 0) (0 : Nat) = some (memory', entryPoint) ∧
        Loaded (oneByteMemory 0) 0x100000 memory' := by
  have hn : ePhnum (oneByteMemory 0) 0x100000 = 1 := by decide +kernel
  have himg : Image (oneByteMemory 0) 0x100000 89 := image_of_one_header hn (by decide +kernel)
  obtain ⟨memory', entryPoint, hrun, hiff⟩ := loaded_iff himg [0x100000] 0 rfl
  refine ⟨memory', entryPoint, hrun, hiff.2 fun i hi _ => ?_⟩
  obtain rfl : i = 0 := by omega
  exact Proghdr.repeats_of_aligned (by decide +kernel)

/-- Four bytes into its page the segment is not loaded. -/
theorem oneByte_not_loaded :
    Image (oneByteMemory 4) 0x100000 89 ∧
      ∃ memory' entryPoint,
        programLoader [0x100000] (oneByteMemory 4) (0 : Nat) = some (memory', entryPoint) ∧
          memory' 0x200004 = 0 ∧ ¬ Loaded (oneByteMemory 4) 0x100000 memory' := by
  have hn : ePhnum (oneByteMemory 4) 0x100000 = 1 := by decide +kernel
  have himg : Image (oneByteMemory 4) 0x100000 89 := image_of_one_header hn (by decide +kernel)
  obtain ⟨memory', entryPoint, hrun, hloaded⟩ :=
    programLoader_loadedTo himg (show ([0x100000] : List UInt32)[0]? = some 0x100000 from rfl)
  have hbyte := (hloaded.placed 0 (by decide +kernel) (by decide +kernel)).1 0 (by decide +kernel)
  have hlate : memory' 0x200004 = 0 := Eq.trans hbyte (by decide +kernel)
  refine ⟨himg, memory', entryPoint, hrun, hlate, fun h => ?_⟩
  have hshould := (h 0 (by decide +kernel) (by decide +kernel)).1 0 (by decide +kernel)
  exact absurd (Eq.trans hbyte.symm hshould) (by decide +kernel)

end OsLabs.Weensy.Loader
