import Pintos.Filesys.Path
import Pintos.Vm.Vpage

/-! # Loading an executable

`load` of `userprog/process.c` reads an ELF file and a command line. What it does to virtual memory is a list
of steps known from both: the vpages of the segments, the stack page, and where it gives up. The file is the
one that `filesys_open` found and cannot be written meanwhile (`file_deny_write`). -/

namespace Pintos.Userprog.Load

open Pintos.Filesys.Path Pintos.Vm.State

/-- `ARGC_LIMIT`. -/
def argcLimit : ℕ := 100

/-- A step of `load` that touches virtual memory, or its end in failure. -/
inductive LoadStep
  /-- `vpage_info_lazy_allocate` in a round of `load_segment`. -/
  | segmentPage (upage : Upage) (i : InfoLazy) (writable : Bool)
  /-- `setup_stack`. -/
  | setupStack
  /-- `goto done` with `success` false. -/
  | fail
  deriving DecidableEq

/-! ### ELF -/

def le16 (f : FileData) (ofs : ℕ) : ℕ := (f.bytes ofs).toNat + 2 ^ 8 * (f.bytes (ofs + 1)).toNat

def le32 (f : FileData) (ofs : ℕ) : ℕ := le16 f ofs + 2 ^ 16 * le16 f (ofs + 2)

/-- `sizeof (struct Elf32_Ehdr)`. -/
def sizeofEhdr : ℕ := 52

/-- `sizeof (struct Elf32_Phdr)`. -/
def sizeofPhdr : ℕ := 32

/-- The magic number that starts an ELF file for a 32-bit little-endian machine. -/
def elfMagic : List UInt8 := [0x7f, 0x45, 0x4c, 0x46, 1, 1, 1]

/-- The check of the executable header. -/
def ehdrOk (f : FileData) : Bool :=
  sizeofEhdr ≤ f.length && (List.range 7).map f.bytes = elfMagic && le16 f 16 = 2 &&
    le16 f 18 = 3 && le32 f 20 = 1 && le16 f 42 = sizeofPhdr && le16 f 44 ≤ 1024

/-- `struct Elf32_Phdr`, as far as `load` looks at it. -/
structure Phdr where
  pType : ℕ
  pOffset : ℕ
  pVaddr : ℕ
  pFilesz : ℕ
  pMemsz : ℕ
  pFlags : ℕ

/-- The program header at `ofs`. -/
def readPhdr (f : FileData) (ofs : ℕ) : Phdr where
  pType := le32 f ofs
  pOffset := le32 f (ofs + 4)
  pVaddr := le32 f (ofs + 8)
  pFilesz := le32 f (ofs + 16)
  pMemsz := le32 f (ofs + 20)
  pFlags := le32 f (ofs + 24)

/-- `is_user_vaddr` of a 32-bit address. -/
def isUserVaddr (vaddr : ℕ) : Bool := vaddr % 2 ^ 32 < physBase * pgSize

/-- `validate_segment`. -/
def validateSegment (f : FileData) (p : Phdr) : Bool :=
  p.pOffset % pgSize = p.pVaddr % pgSize && p.pOffset ≤ f.length && p.pFilesz ≤ p.pMemsz &&
    p.pMemsz ≠ 0 && isUserVaddr p.pVaddr && isUserVaddr (p.pVaddr + p.pMemsz) &&
    p.pVaddr ≤ (p.pVaddr + p.pMemsz) % 2 ^ 32 && pgSize ≤ p.pVaddr

/-- `load_segment`, which has `pages` rounds: the bytes that are read and the zeros fill whole pages. -/
def loadSegment (file : FileId) (ofs : ℕ) (upage : Upage) (readBytes : ℕ) (writable : Bool) :
    ℕ → List LoadStep
  | 0 => []
  | pages + 1 =>
    let pageReadBytes := min readBytes pgSize
    .segmentPage upage ⟨some file, ofs, ⟨pageReadBytes, min_pgSize_lt readBytes⟩⟩ writable ::
      loadSegment file (ofs + pageReadBytes) (upage + 1) (readBytes - pageReadBytes) writable pages

/-- The case `PT_LOAD`, for a valid segment. -/
def segmentSteps (file : FileId) (p : Phdr) : List LoadStep :=
  let pageOffset := p.pVaddr % pgSize
  let readBytes := if 0 < p.pFilesz then pageOffset + p.pFilesz else 0
  let pages := (pageOffset + p.pMemsz + pgSize - 1) / pgSize
  loadSegment file (p.pOffset / pgSize * pgSize) (p.pVaddr / pgSize) readBytes
    (p.pFlags / 2 % 2 = 1) pages

/-- The loop over `cnt` program headers from `ofs` on; `rest` is what follows when all are good. -/
def phdrSteps (file : FileId) (f : FileData) (rest : List LoadStep) (ofs : ℕ) : ℕ → List LoadStep
  | 0 => rest
  | cnt + 1 =>
    if f.length < ofs + sizeofPhdr then [.fail]
    else
      let p := readPhdr f ofs
      let next := phdrSteps file f rest (ofs + sizeofPhdr) cnt
      -- PT_LOAD; PT_DYNAMIC, PT_INTERP and PT_SHLIB; everything else is ignored
      match p.pType with
      | 1 => if validateSegment f p then segmentSteps file p ++ next else [.fail]
      | 2 | 3 | 5 => [.fail]
      | _ => next

/-! ### load -/

/-- The arguments that `load` counts: one more than the spaces of the command line. -/
def argc (cmdLine : CStr) : ℕ := 1 + cmdLine.count ' '

/-- From the stack page on. -/
def stackSteps (cmdLine : CStr) : List LoadStep :=
  .setupStack :: if argcLimit < argc cmdLine then [.fail] else []

/-- `load` after the page directory, for the file that was opened. -/
def loadSteps (file : FileId) (f : FileData) (cmdLine : CStr) : List LoadStep :=
  if ehdrOk f then phdrSteps file f (stackSteps cmdLine) (le32 f 28) (le16 f 44) else [.fail]

end Pintos.Userprog.Load
