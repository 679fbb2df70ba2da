import FiveFs.Device

/-! Filesystem access: finding the superblock, the AG map, address resolution and whole blocks. -/

namespace FiveFs

open Buffer

structure Gofs where
  dev : Device
  sb : Superblock
  map : AgMap
  /-- In-memory allocator scan hints per AG: (arena block, L0 cell). -/
  hints : Nat → Option (Nat × Nat) := fun _ => none

namespace Gofs

open Prog

def pread (off n : Nat) : Prog Gofs Bytes := fun g => ((g.dev.pread off n).mapError .bail, g)

def pwrite (off n : Nat) (buf : Bytes) : Prog Gofs Unit :=
  modify fun g => { g with dev := g.dev.pwrite off n buf }

def sync : Prog Gofs Unit := modify fun g => { g with dev := g.dev.sync }

/-- Block sizes at which the AG 0 header is looked for. -/
def probeSizes : List Nat := [2048, 4096, 8192, 16384, 32768, 65536]

def probeBackup [Crc32c] (dev : Device) (primaryErr : String) :
    List Nat → Except Err (Superblock × Bool)
  | [] => .error (.bail s!"{primaryErr}; backup superblock not found either")
  | bs :: rest =>
      match dev.pread bs AGHDR_SIZE with
      | .error _ => probeBackup dev primaryErr rest
      | .ok h =>
          match AgHeader.parse h with
          | .error _ => probeBackup dev primaryErr rest
          | .ok hdr =>
              if hdr.agNum ≠ 0 then probeBackup dev primaryErr rest
              else if hdr.length = 0 then .error (.panic "attempt to subtract with overflow")
              else
                match dev.pread ((hdr.length - 1) * bs) SB_SIZE with
                | .error _ => probeBackup dev primaryErr rest
                | .ok bak =>
                    match Superblock.parse bak with
                    | .error _ => probeBackup dev primaryErr rest
                    | .ok sb =>
                        if sb.blocksize = bs then .ok (sb, true)
                        else probeBackup dev primaryErr rest

/-- Read the primary superblock, falling back to the backup copy in the last block of AG 0. -/
def findSuperblock [Crc32c] (dev : Device) : Except Err (Superblock × Bool) :=
  match dev.pread 0 SB_SIZE with
  | .error m => .error (.bail m)
  | .ok sbbuf =>
      match Superblock.parse sbbuf with
      | .ok sb => .ok (sb, false)
      | .error primaryErr => probeBackup dev primaryErr probeSizes

/-- One copy of the AG map. -/
def readAgmapCopy [Crc32c] (dev : Device) (sb : Superblock) (copy : Nat) : Except String AgMap := do
  let buf ← dev.pread (sb.agmapOffset + copy * sb.agmapLength) sb.agmapLength
  AgMap.parse buf sb.agmapLength

/-- Load both AG map copies; the highest valid generation wins. -/
def loadAgmap [Crc32c] (dev : Device) (sb : Superblock) : Except Err AgMap :=
  match readAgmapCopy dev sb 0, readAgmapCopy dev sb 1 with
  | .ok a, .ok b => .ok (if b.gen > a.gen then b else a)
  | .ok a, .error _ => .ok a
  | .error _, .ok b => .ok b
  | .error _, .error _ => .error (.bail "no valid AG map copy")

def resolve (blk : Nat) : Prog Gofs Nat := do
  let g ← get
  match g.map.resolve blk g.sb.blocksize with
  | some off => return off
  | none => bail s!"unmapped block address {hex blk}"

def readBlock (blk : Nat) : Prog Gofs Bytes := do
  let g ← get
  let off ← resolve blk
  pread off g.sb.blocksize

/-- `data` is a whole block at every call. -/
def writeBlock (blk : Nat) (data : Bytes) : Prog Gofs Unit := do
  let g ← get
  let off ← resolve blk
  pwrite off g.sb.blocksize data

/-- Byte offset of the backup superblock: the last block of AG 0's first segment. -/
def backupOff (m : AgMap) (blocksize : Nat) : Option Nat :=
  match m.entries with
  | [] => none
  | e :: _ =>
      match e.segs with
      | [] => none
      | s :: _ => some (s.devOffset + (s.blocks - 1) * blocksize)

/-- True if the backup superblock parses and matches the primary's generation. -/
def backupSuperblockOk [Crc32c] (g : Gofs) : Bool :=
  match backupOff g.map g.sb.blocksize with
  | none => true
  | some off =>
      match g.dev.pread off SB_SIZE with
      | .error _ => false
      | .ok bak =>
          match Superblock.parse bak with
          | .ok b => b.uuid == g.sb.uuid && b.gen == g.sb.gen
          | .error _ => false

def writeSuperblock [Crc32c] : Prog Gofs Unit := do
  let g ← get
  if g.sb.gen + 1 ≥ 2 ^ 64 then panicWith "attempt to add with overflow"
  modify fun g => { g with sb := { g.sb with gen := g.sb.gen + 1 } }
  let g ← get
  let bytes := g.sb.toBytes
  pwrite 0 SB_SIZE bytes
  match backupOff g.map g.sb.blocksize with
  | none => return ()
  | some off => pwrite off SB_SIZE bytes

end Gofs

end FiveFs
