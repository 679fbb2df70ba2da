import FiveFs.Lib.Buffer

/-! On-disk format: the superblock, allocation group headers and the AG map. All integers are
big-endian; a four-byte magic is compared as the integer it spells. -/

namespace FiveFs

open Buffer

/-- The external CRC32C: continue a checksum over more data. -/
class Crc32c where
  append : UInt32 → List UInt8 → UInt32

/-- One bit of the reflected CRC32C polynomial. -/
def crcBit (c : UInt32) : UInt32 := if c &&& 1 = 1 then (c >>> 1) ^^^ 0x82F63B78 else c >>> 1

def crcByte (c : UInt32) (b : UInt8) : UInt32 := crcBit^[8] (c ^^^ b.toUInt32)

/-- CRC32C itself. -/
@[reducible] def castagnoli : Crc32c where
  append c data := ~~~ (data.foldl crcByte (~~~ c))

def crc32c [Crc32c] (data : List UInt8) : UInt32 := Crc32c.append 0 data

example : @crc32c castagnoli [0x31, 0x32, 0x33, 0x34, 0x35, 0x36, 0x37, 0x38, 0x39] =
    0xE3069283 := by
  decide +kernel

/-- An address in a message. -/
def hex (n : Nat) : String := "0x" ++ String.ofList (Nat.toDigits 16 n)

def VERSION : Nat := 2
def SB_MAGIC : Nat := 0x35465342
def AG_MAGIC : Nat := 0x35465348
def AGMAP_MAGIC : Nat := 0x3546534D
def ALLOC_MAGIC : Nat := 0x35465341
def TREE_MAGIC : Nat := 0x35465354
def DIRH_MAGIC : Nat := 0x35465344
def BUCKET_MAGIC : Nat := 0x35465362
def JDESC_MAGIC : Nat := 0x3546534A
def JCOMMIT_MAGIC : Nat := 0x35465343
def INODE_MAGIC : Nat := 0x494e

def ALLOC_FANOUT : Nat := 16
def NODE_FANOUT : Nat := 64
def ROOT_FANOUT : Nat := 6
def CELL_BLOCKS : Nat := 256
def SB_SIZE : Nat := 512
def AGHDR_SIZE : Nat := 64
def INODE_SIZE : Nat := 256
def INODE_PAYLOAD : Nat := 128

def CELL_FREE : Nat := 0
def CELL_RSVD : Nat := 1
def CELL_FULL : Nat := 2
def CELL_REFINED : Nat := 3

def AGF_PRESENT : Nat := 1
def AGF_IMMOVABLE : Nat := 2
def AGF_RETIRED : Nat := 4

def blkAddr (ag l : Nat) : Nat := ag * 2 ^ 32 + l
def blkSplit (addr : Nat) : Nat × Nat := (addr / 2 ^ 32, addr % 2 ^ 32)
def inoAddr (ag slot : Nat) : Nat := blkAddr ag slot

def putU16 (b : Bytes) (off v : Nat) : Bytes := putBE 2 b off v
def putU32 (b : Bytes) (off v : Nat) : Bytes := putBE 4 b off v
def putU64 (b : Bytes) (off v : Nat) : Bytes := putBE 8 b off v
def getU16 (b : Bytes) (off : Nat) : Nat := getBE b off 2
def getU32 (b : Bytes) (off : Nat) : Nat := getBE b off 4
def getU64 (b : Bytes) (off : Nat) : Nat := getBE b off 8

/-- CRC32C of `buf[..len]` with the 4-byte checksum field at `csumOff` treated as zero. -/
def csum [Crc32c] (buf : Bytes) (len csumOff : Nat) : Nat :=
  let c := crc32c (slice buf 0 csumOff)
  let c := Crc32c.append c [0, 0, 0, 0]
  (Crc32c.append c (slice buf (csumOff + 4) (len - (csumOff + 4)))).toNat

def cellGet (buf : Bytes) (idx : Nat) : Nat := get2 buf idx
def cellSet (buf : Bytes) (idx state : Nat) : Bytes := set2 buf idx state

structure Superblock where
  compat : Nat := 0
  roCompat : Nat := 0
  incompat : Nat := 0
  blocksize : Nat := 0
  inodesize : Nat := 0
  /-- The 16 bytes as one integer. -/
  uuid : Nat := 0
  diskName : List Nat := List.replicate 16 0
  rootIno : Nat := 0
  nextAg : Nat := 0
  /-- Physical bytes. -/
  agmapOffset : Nat := 0
  /-- Bytes per copy. -/
  agmapLength : Nat := 0
  /-- Block address. -/
  journalStart : Nat := 0
  /-- Blocks. -/
  journalLength : Nat := 0
  /-- Physical bytes, 0 = none. -/
  kernelOffset : Nat := 0
  kernelEnd : Nat := 0
  freeBlocks : Nat := 0
  rsvdBlocks : Nat := 0
  fullBlocks : Nat := 0
  gen : Nat := 0
  /-- Next journal transaction sequence number. -/
  journalSeq : Nat := 0
  /-- Journal write and replay position (block index within the journal area). -/
  journalHead : Nat := 0
  deriving DecidableEq, Repr

namespace Superblock

/-- The fields before the checksum is filled in. -/
def fields (sb : Superblock) : Bytes :=
  let b := putU32 zeros 0 SB_MAGIC
  let b := putU32 b 8 VERSION
  let b := putU64 b 12 sb.compat
  let b := putU64 b 20 sb.roCompat
  let b := putU64 b 28 sb.incompat
  let b := putU32 b 36 sb.blocksize
  let b := putU16 b 40 sb.inodesize
  let b := putBE 16 b 42 sb.uuid
  let b := putArr 2 b 58 sb.diskName
  let b := putU64 b 90 sb.rootIno
  let b := putU32 b 98 sb.nextAg
  let b := putU64 b 102 sb.agmapOffset
  let b := putU64 b 110 sb.agmapLength
  let b := putU64 b 118 sb.journalStart
  let b := putU64 b 126 sb.journalLength
  let b := putU64 b 134 sb.kernelOffset
  let b := putU64 b 142 sb.kernelEnd
  let b := putU64 b 150 sb.freeBlocks
  let b := putU64 b 158 sb.rsvdBlocks
  let b := putU64 b 166 sb.fullBlocks
  let b := putU64 b 174 sb.gen
  let b := putU64 b 182 sb.journalSeq
  putU64 b 190 sb.journalHead

def toBytes [Crc32c] (sb : Superblock) : Bytes :=
  putU32 sb.fields 4 (csum sb.fields SB_SIZE 4)

/-- `blocksize.is_power_of_two()` on a `u32`. -/
def isPowerOfTwo (n : Nat) : Bool := (List.range 32).any fun k => n == 2 ^ k

/-- Every caller passes `SB_SIZE` bytes, so the short-read test is left out. -/
def parse [Crc32c] (b : Bytes) : Except String Superblock :=
  if getU32 b 0 ≠ SB_MAGIC then .error "superblock: bad magic"
  else if getU32 b 4 ≠ csum b SB_SIZE 4 then .error "superblock: bad checksum"
  else if getU32 b 8 ≠ VERSION then
    .error s!"superblock: unsupported version {getU32 b 8}"
  else
    let sb : Superblock := {
      compat := getU64 b 12
      roCompat := getU64 b 20
      incompat := getU64 b 28
      blocksize := getU32 b 36
      inodesize := getU16 b 40
      uuid := getBE b 42 16
      diskName := getArr 2 b 58 16
      rootIno := getU64 b 90
      nextAg := getU32 b 98
      agmapOffset := getU64 b 102
      agmapLength := getU64 b 110
      journalStart := getU64 b 118
      journalLength := getU64 b 126
      kernelOffset := getU64 b 134
      kernelEnd := getU64 b 142
      freeBlocks := getU64 b 150
      rsvdBlocks := getU64 b 158
      fullBlocks := getU64 b 166
      gen := getU64 b 174
      journalSeq := getU64 b 182
      journalHead := getU64 b 190 }
    if !isPowerOfTwo sb.blocksize || sb.blocksize < 512 then .error "superblock: bad blocksize"
    else .ok sb

end Superblock

structure AgHeader where
  agNum : Nat := 0
  gen : Nat := 0
  /-- Blocks. -/
  length : Nat := 0
  freeBlocks : Nat := 0
  rsvdBlocks : Nat := 0
  fullBlocks : Nat := 0
  /-- Block offset within the AG. -/
  allocRoot : Nat := 0
  /-- Local block of the current inode block (free slots). -/
  inoHint : Nat := 0
  dataHint : Nat := 0
  /-- Local block of the active allocator-table arena cell (0 = none). -/
  tblArena : Nat := 0
  deriving DecidableEq, Repr

namespace AgHeader

def fields (h : AgHeader) : Bytes :=
  let b := putU32 zeros 0 AG_MAGIC
  let b := putU32 b 8 h.agNum
  let b := putU64 b 12 h.gen
  let b := putU32 b 20 h.length
  let b := putU32 b 24 h.freeBlocks
  let b := putU32 b 28 h.rsvdBlocks
  let b := putU32 b 32 h.fullBlocks
  let b := putU32 b 36 h.allocRoot
  let b := putU32 b 40 h.inoHint
  let b := putU32 b 44 h.dataHint
  putU32 b 48 h.tblArena

def toBytes [Crc32c] (h : AgHeader) : Bytes := putU32 h.fields 4 (csum h.fields AGHDR_SIZE 4)

def parse [Crc32c] (b : Bytes) : Except String AgHeader :=
  if getU32 b 0 ≠ AG_MAGIC then .error "ag header: bad magic"
  else if getU32 b 4 ≠ csum b AGHDR_SIZE 4 then .error "ag header: bad checksum"
  else .ok {
    agNum := getU32 b 8
    gen := getU64 b 12
    length := getU32 b 20
    freeBlocks := getU32 b 24
    rsvdBlocks := getU32 b 28
    fullBlocks := getU32 b 32
    allocRoot := getU32 b 36
    inoHint := getU32 b 40
    dataHint := getU32 b 44
    tblArena := getU32 b 48 }

end AgHeader

/-- Allocator root table geometry: (level-0 cells, table size in blocks). -/
def rtGeometry (agBlocks blocksize : Nat) : Nat × Nat :=
  let cells := (agBlocks + CELL_BLOCKS - 1) / CELL_BLOCKS
  let bytes := (cells + 3) / 4 + cells * 6
  (cells, (bytes + blocksize - 1) / blocksize)

/-- Byte offset of L0 cell `c`'s child-table reference within the root table. -/
def rtRefOff (cells c : Nat) : Nat := (cells + 3) / 4 + c * 6

structure AgSegment where
  /-- First AG-space block this segment maps. -/
  agBlock : Nat
  blocks : Nat
  /-- Physical byte offset. -/
  devOffset : Nat
  deriving DecidableEq, Repr

structure AgEntry where
  flags : Nat
  length : Nat
  segs : List AgSegment
  deriving DecidableEq, Repr

structure AgMap where
  gen : Nat := 0
  entries : List AgEntry := []
  deriving DecidableEq, Repr

def AGMAP_HDR : Nat := 24

namespace AgMap

def putSegs : Bytes → Nat → List AgSegment → Bytes
  | b, _, [] => b
  | b, off, s :: rest =>
      let b := putU32 b off s.agBlock
      let b := putU32 b (off + 4) s.blocks
      let b := putU64 b (off + 8) s.devOffset
      putSegs b (off + 16) rest

def putEntries (capacity : Nat) : Bytes → Nat → List AgEntry → Except String (Bytes × Nat)
  | b, off, [] => .ok (b, off)
  | b, off, e :: rest =>
      if off + 8 + e.segs.length * 16 > capacity then .error "ag map: capacity exceeded"
      else
        let b := putU16 b off e.flags
        let b := putU16 b (off + 2) e.segs.length
        let b := putU32 b (off + 4) e.length
        putEntries capacity (putSegs b (off + 8) e.segs) (off + 8 + e.segs.length * 16) rest

def toBytes [Crc32c] (m : AgMap) (capacity : Nat) : Except String Bytes := do
  let b := putU32 zeros 0 AGMAP_MAGIC
  let b := putU64 b 8 m.gen
  let b := putU32 b 16 m.entries.length
  let (b, off) ← putEntries capacity b AGMAP_HDR m.entries
  let b := putU32 b 20 off
  return putU32 b 4 (csum b off 4)

/-- `nseg` segments from `off` on. -/
def parseSegs (b : Bytes) (used : Nat) : Nat → Nat → Except String (List AgSegment × Nat)
  | 0, off => .ok ([], off)
  | n + 1, off => do
      if off + 16 > used then throw "ag map: truncated segment"
      let (segs, off') ← parseSegs b used n (off + 16)
      return (⟨getU32 b off, getU32 b (off + 4), getU64 b (off + 8)⟩ :: segs, off')

def parseEntries (b : Bytes) (used : Nat) : Nat → Nat → Except String (List AgEntry)
  | 0, _ => .ok []
  | n + 1, off => do
      if off + 8 > used then throw "ag map: truncated entry"
      let (segs, off') ← parseSegs b used (getU16 b (off + 2)) (off + 8)
      let entries ← parseEntries b used n off'
      return ⟨getU16 b off, getU32 b (off + 4), segs⟩ :: entries

def parse [Crc32c] (b : Bytes) (len : Nat) : Except String AgMap := do
  if len < AGMAP_HDR ∨ getU32 b 0 ≠ AGMAP_MAGIC then throw "ag map: bad magic"
  let used := getU32 b 20
  if used < AGMAP_HDR ∨ used > len then throw "ag map: bad length"
  if getU32 b 4 ≠ csum b used 4 then throw "ag map: bad checksum"
  let entries ← parseEntries b used (getU32 b 16) AGMAP_HDR
  return { gen := getU64 b 8, entries }

/-- Resolve a block address to a physical byte offset. -/
def resolve (m : AgMap) (addr blocksize : Nat) : Option Nat :=
  let (ag, l) := blkSplit addr
  match m.entries[ag]? with
  | none => none
  | some e =>
      if e.flags &&& AGF_PRESENT = 0 ∨ l ≥ e.length then none
      else
        (e.segs.find? fun s => s.agBlock ≤ l && l < s.agBlock + s.blocks).map fun s =>
          s.devOffset + (l - s.agBlock) * blocksize

end AgMap

end FiveFs
