import FiveFs.Codec

/-! Inodes, inline extents and embedded directory entries: the 256-byte image and its payload. -/

namespace FiveFs

open Buffer

def FMT_EMPTY : Nat := 1
def FMT_EMBED : Nat := 2
def FMT_EXTENT : Nat := 3
def FMT_TREE : Nat := 4

def INODE_FLAG_IMMUTABLE : Nat := 1

structure Ts where
  /-- The bits of an `i64`. -/
  sec : Nat := 0
  nsec : Nat := 0
  deriving DecidableEq, Repr

structure Inode where
  format : Nat := FMT_EMPTY
  mode : Nat := 0
  nlink : Nat := 0
  uid : Nat := 0
  gid : Nat := 0
  flags : Nat := 0
  gen : Nat := 0
  size : Nat := 0
  nblocks : Nat := 0
  atime : Ts := {}
  mtime : Ts := {}
  ctime : Ts := {}
  btime : Ts := {}
  xattr : Nat := 0
  /-- `INODE_PAYLOAD` bytes. -/
  payload : Bytes := zeros

def putTs (b : Bytes) (off : Nat) (t : Ts) : Bytes := putU32 (putU64 b off t.sec) (off + 8) t.nsec
def getTs (b : Bytes) (off : Nat) : Ts := ⟨getU64 b off, getU32 b (off + 8)⟩

namespace Inode

/-- The fields before the checksum is filled in. -/
def fields (i : Inode) : Bytes :=
  let b := putU16 zeros 0 INODE_MAGIC
  let b := putBE 1 b 2 2
  let b := putBE 1 b 3 i.format
  let b := putU16 b 8 i.mode
  let b := putU32 b 10 i.nlink
  let b := putU32 b 14 i.uid
  let b := putU32 b 18 i.gid
  let b := putU32 b 22 i.flags
  let b := putU32 b 26 i.gen
  let b := putU64 b 30 i.size
  let b := putU64 b 38 i.nblocks
  let b := putTs b 46 i.atime
  let b := putTs b 58 i.mtime
  let b := putTs b 70 i.ctime
  let b := putTs b 82 i.btime
  let b := putU64 b 94 i.xattr
  copyAt b 128 INODE_PAYLOAD i.payload

def toBytes [Crc32c] (i : Inode) : Bytes := putU32 i.fields 4 (csum i.fields INODE_SIZE 4)

/-- `len` is the length of the slice that `b` was taken from. -/
def parse [Crc32c] (b : Bytes) (len : Nat) : Except String Inode :=
  if len < INODE_SIZE then .error "inode: short read"
  else if getU16 b 0 ≠ INODE_MAGIC then .error "inode: bad magic"
  else if getU32 b 4 ≠ csum b INODE_SIZE 4 then .error "inode: bad checksum"
  else if getBE b 2 1 ≠ 2 then .error s!"inode: unsupported version {getBE b 2 1}"
  else .ok {
    format := getBE b 3 1
    mode := getU16 b 8
    nlink := getU32 b 10
    uid := getU32 b 14
    gid := getU32 b 18
    flags := getU32 b 22
    gen := getU32 b 26
    size := getU64 b 30
    nblocks := getU64 b 38
    atime := getTs b 46
    mtime := getTs b 58
    ctime := getTs b 70
    btime := getTs b 82
    xattr := getU64 b 94
    payload := clip INODE_PAYLOAD (drop 128 b) }

def isDir (i : Inode) : Bool := i.mode &&& 0o170000 == 0o040000

/-- An inode as its fields hold it. -/
def wrap (i : Inode) : Inode where
  format := i.format % 2 ^ 8
  mode := i.mode % 2 ^ 16
  nlink := i.nlink % 2 ^ 32
  uid := i.uid % 2 ^ 32
  gid := i.gid % 2 ^ 32
  flags := i.flags % 2 ^ 32
  gen := i.gen % 2 ^ 32
  size := i.size % 2 ^ 64
  nblocks := i.nblocks % 2 ^ 64
  atime := ⟨i.atime.sec % 2 ^ 64, i.atime.nsec % 2 ^ 32⟩
  mtime := ⟨i.mtime.sec % 2 ^ 64, i.mtime.nsec % 2 ^ 32⟩
  ctime := ⟨i.ctime.sec % 2 ^ 64, i.ctime.nsec % 2 ^ 32⟩
  btime := ⟨i.btime.sec % 2 ^ 64, i.btime.nsec % 2 ^ 32⟩
  xattr := i.xattr % 2 ^ 64
  payload := clip INODE_PAYLOAD i.payload

end Inode

structure Ts.Fits (t : Ts) : Prop where
  sec : t.sec < 2 ^ 64
  nsec : t.nsec < 2 ^ 32

/-- Every field has a value of its width. -/
structure Inode.Fits (i : Inode) : Prop where
  format : i.format < 2 ^ 8
  mode : i.mode < 2 ^ 16
  nlink : i.nlink < 2 ^ 32
  uid : i.uid < 2 ^ 32
  gid : i.gid < 2 ^ 32
  flags : i.flags < 2 ^ 32
  gen : i.gen < 2 ^ 32
  size : i.size < 2 ^ 64
  nblocks : i.nblocks < 2 ^ 64
  atime : i.atime.Fits
  mtime : i.mtime.Fits
  ctime : i.ctime.Fits
  btime : i.btime.Fits
  xattr : i.xattr < 2 ^ 64
  payload : clip INODE_PAYLOAD i.payload = i.payload

/-- One inline extent record. -/
structure Extent where
  fileBlock : Nat
  /-- Block address. -/
  blk : Nat
  blocks : Nat
  deriving DecidableEq, Repr

def EXTENT_REC : Nat := 20
def MAX_INLINE_EXTENTS : Nat := INODE_PAYLOAD / EXTENT_REC

def putExtents : Bytes → Nat → List Extent → Bytes
  | b, _, [] => b
  | b, off, e :: rest =>
      putExtents (putU32 (putU64 (putU64 b off e.fileBlock) (off + 8) e.blk) (off + 16) e.blocks)
        (off + EXTENT_REC) rest

/-- The payload is cleared first. -/
def extentsStore (extents : List Extent) : Except String Bytes :=
  if extents.length > MAX_INLINE_EXTENTS then .error "too many inline extents"
  else .ok (putExtents zeros 0 extents)

structure DirEntry where
  ino : Nat
  /-- 1 = file, 2 = dir. -/
  ftype : Nat
  /-- UTF-16 units. -/
  name : List Nat
  deriving DecidableEq, Repr

def DT_FILE : Nat := 1
def DT_DIR : Nat := 2

/-- The entries from `off` on, for at most `fuel` of them: every entry takes at least 10 bytes. -/
def dirParseFrom (payload : Bytes) : Nat → Nat → List DirEntry
  | 0, _ => []
  | fuel + 1, off =>
      let nlen := getBE payload (off + 9) 1
      if off + 10 > INODE_PAYLOAD then []
      else if getU64 payload off = 0 then []
      else if off + 10 + nlen * 2 > INODE_PAYLOAD then []
      else
        ⟨getU64 payload off, getBE payload (off + 8) 1, getArr 2 payload (off + 10) nlen⟩ ::
          dirParseFrom payload fuel (off + 10 + nlen * 2)

def dirParse (payload : Bytes) : List DirEntry := dirParseFrom payload INODE_PAYLOAD 0

def DirEntry.need (e : DirEntry) : Nat := 10 + e.name.length * 2

def dirAppend (payload : Bytes) (e : DirEntry) : Except String Bytes :=
  let off := ((dirParse payload).map DirEntry.need).sum
  if e.name.length > 255 then .error "name too long"
  else if off + e.need > INODE_PAYLOAD then .error "embedded directory full"
  else
    let b := putU64 payload off e.ino
    let b := putBE 1 b (off + 8) e.ftype
    let b := putBE 1 b (off + 9) e.name.length
    .ok (putArr 2 b (off + 10) e.name)

namespace Inode
variable [Crc32c]

theorem parse_congr {a b : Bytes} (same : ∀ k < INODE_SIZE, a k = b k) :
    parse a INODE_SIZE = parse b INODE_SIZE := by
  have read : ∀ off n, off + n ≤ 256 → getBE a off n = getBE b off n :=
    fun off n inside => getBE_congr fun k hk => same _ (by rw [INODE_SIZE]; omega)
  have sum : csum a INODE_SIZE 4 = csum b INODE_SIZE 4 :=
      csum_congr (by decide) fun k hk _ => same k hk
  have payload : clip INODE_PAYLOAD (drop 128 a) = clip INODE_PAYLOAD (drop 128 b) :=
    clip_congr fun k hk => same _ (by rw [INODE_SIZE]; rw [INODE_PAYLOAD] at hk; omega)
  rw [parse, parse, sum, payload]
  simp (disch := decide) only [getU16, getU32, getU64, getTs, read]
  rfl

theorem parse_wrap (i : Inode) : parse i.toBytes INODE_SIZE = .ok i.wrap := by
  have sum : csum i.toBytes INODE_SIZE 4 = csum i.fields INODE_SIZE 4 := csum_putU32 _ (by decide)
  have stored : getU32 i.toBytes 4 = csum i.fields INODE_SIZE 4 := by
    rw [toBytes, getU32, putU32, getBE_putBE]
    exact Nat.mod_eq_of_lt (csum_lt _ _ _)
  have magic : getU16 i.toBytes 0 = INODE_MAGIC := by
    simp (disch := omega) only [getU16, toBytes, fields, putU32, putU64, putU16, putTs,
        INODE_PAYLOAD,
      getBE_copyAt_disjoint, getBE_putBE_disjoint, getBE_putBE]
    decide
  have version : getBE i.toBytes 2 1 = 2 := by
    simp (disch := omega) only [toBytes, fields, putU32, putU64, putU16, putTs, INODE_PAYLOAD,
      getBE_copyAt_disjoint, getBE_putBE_disjoint, getBE_putBE]
    decide
  have payload : clip INODE_PAYLOAD (drop 128 i.toBytes) = clip INODE_PAYLOAD i.payload := by
    apply clip_congr
    intro k hk
    rw [toBytes, drop, putU32, putBE_of_not_mem (by omega), fields, copyAt_of_mem (by omega),
      Nat.add_sub_cancel_left]
  rw [parse, if_neg (Nat.lt_irrefl _), if_neg (not_not.mpr magic), sum, if_neg (not_not.mpr stored),
    if_neg (not_not.mpr version), payload]
  simp (disch := omega) only [getU16, getU32, getU64, getTs, toBytes, fields, putU32, putU64,
      putU16, putTs,
    INODE_PAYLOAD, getBE_copyAt_disjoint, getBE_putBE_disjoint, getBE_putBE]
  rfl

theorem parse_toBytes (i : Inode) : ∃ j, parse i.toBytes INODE_SIZE = .ok j ∧
    j.format = i.format % 256 ∧
    j.mode = i.mode % 2 ^ 16 ∧ j.payload = clip INODE_PAYLOAD i.payload :=
  ⟨i.wrap, parse_wrap i, rfl, rfl, rfl⟩

omit [Crc32c] in
theorem wrap_of_fits {i : Inode} (fits : i.Fits) : i.wrap = i := by
  have ts : ∀ {t : Ts}, t.Fits → (⟨t.sec % 2 ^ 64, t.nsec % 2 ^ 32⟩ : Ts) = t := by
    intro t fits
    rw [Nat.mod_eq_of_lt fits.sec, Nat.mod_eq_of_lt fits.nsec]
  rw [wrap, ts fits.atime, ts fits.mtime, ts fits.ctime, ts fits.btime, fits.payload,
    Nat.mod_eq_of_lt fits.format, Nat.mod_eq_of_lt fits.mode, Nat.mod_eq_of_lt fits.nlink,
    Nat.mod_eq_of_lt fits.uid,
    Nat.mod_eq_of_lt fits.gid, Nat.mod_eq_of_lt fits.flags, Nat.mod_eq_of_lt fits.gen,
    Nat.mod_eq_of_lt fits.size,
    Nat.mod_eq_of_lt fits.nblocks, Nat.mod_eq_of_lt fits.xattr]

end Inode

theorem dirParse_zeros : dirParse zeros = [] := by
  rw [dirParse, INODE_PAYLOAD, dirParseFrom, if_neg (by decide),
      if_pos (by rw [getU64, getBE_zeros])]

/-- The first entry of a directory. -/
def firstEntry (e : DirEntry) : Bytes :=
  putArr 2 (putBE 1 (putBE 1 (putU64 zeros 0 e.ino) 8 e.ftype) 9 e.name.length) 10 e.name

theorem dirAppend_zeros {e : DirEntry} (short : e.need ≤ INODE_PAYLOAD) :
    dirAppend zeros e = .ok (firstEntry e) := by
  have name : ¬ e.name.length > 255 := by
    rw [DirEntry.need, INODE_PAYLOAD] at short
    omega
  rw [dirAppend, dirParse_zeros]
  dsimp only
  rw [if_neg name, if_neg (by simpa using short)]
  rfl

theorem dirParse_firstEntry {e : DirEntry} (short : e.need ≤ INODE_PAYLOAD) (some_ino : 0 < e.ino)
    (ino : e.ino < 2 ^ 64) (ftype : e.ftype < 256) (units : ∀ u ∈ e.name, u < 2 ^ 16) :
    dirParse (clip INODE_PAYLOAD (firstEntry e)) = [e] := by
  rw [DirEntry.need, INODE_PAYLOAD] at short
  have bounds : e.name.length ≤ 59 := by omega
  have length : getBE (clip INODE_PAYLOAD (firstEntry e)) (0 + 9) 1 = e.name.length := by
    rw [getBE_clip _ (by decide), firstEntry, getBE_putArr_disjoint _ _ _ (by omega), getBE_putBE]
    exact Nat.mod_eq_of_lt (by omega)
  have number : getU64 (clip INODE_PAYLOAD (firstEntry e)) 0 = e.ino := by
    rw [getU64, getBE_clip _ (by decide), firstEntry, getBE_putArr_disjoint _ _ _ (by omega),
      getBE_putBE_disjoint _ (by omega), getBE_putBE_disjoint _ (by omega), putU64, getBE_putBE]
    exact Nat.mod_eq_of_lt ino
  have kind : getBE (clip INODE_PAYLOAD (firstEntry e)) (0 + 8) 1 = e.ftype := by
    rw [getBE_clip _ (by decide), firstEntry, getBE_putArr_disjoint _ _ _ (by omega),
      getBE_putBE_disjoint _ (by omega), getBE_putBE]
    exact Nat.mod_eq_of_lt ftype
  have name : getArr 2 (clip INODE_PAYLOAD (firstEntry e)) (0 + 10) e.name.length = e.name := by
    calc
      _ = getArr 2 (firstEntry e) 10 e.name.length := by
        apply getArr_congr
        intro i hi
        rw [clip_of_lt _ (by rw [INODE_PAYLOAD]; omega)]
      _ = e.name := getArr_putArr 2 e.name _ 10 units
  have after : 10 + e.name.length * 2 + 8 ≤ 128 →
      getU64 (clip INODE_PAYLOAD (firstEntry e)) (10 + e.name.length * 2) = 0 := by
    intro room
    rw [getU64, getBE_clip _ (by rw [INODE_PAYLOAD]; omega), firstEntry,
        getBE_putArr_disjoint _ _ _ (by omega),
      getBE_putBE_disjoint _ (by omega), getBE_putBE_disjoint _ (by omega), putU64,
      getBE_putBE_disjoint _ (by omega), getBE_zeros]
  have size : INODE_PAYLOAD = 126 + 1 + 1 := rfl
  have rest : dirParseFrom (clip INODE_PAYLOAD (firstEntry e)) (126 + 1)
      (0 + 10 + e.name.length * 2) = [] := by
    rw [dirParseFrom, Nat.zero_add]
    split
    · rfl
    · rename_i room
      rw [if_pos (after (by rw [INODE_PAYLOAD] at room; omega))]
  have off : ¬ 0 + 10 > INODE_PAYLOAD := by decide
  have some : getU64 (clip INODE_PAYLOAD (firstEntry e)) 0 ≠ 0 := by
    rw [number]
    omega
  have fits : ¬ 0 + 10 + e.name.length * 2 > INODE_PAYLOAD := by
    rw [INODE_PAYLOAD]
    omega
  rw [dirParse]
  nth_rewrite 2 [size]
  rw [dirParseFrom, length, if_neg off, if_neg some, if_neg fits, rest, number, kind, name]

end FiveFs
