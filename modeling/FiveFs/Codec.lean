import FiveFs.Journal

/-! Encoding and decoding of the checked structures: what `to_bytes` writes, `parse` reads back. -/

namespace FiveFs

open Buffer

theorem csum_congr [Crc32c] {a b : Bytes} {len off : Nat} (inside : off + 4 ≤ len)
    (same : ∀ i < len, (i < off ∨ off + 4 ≤ i) → a i = b i) : csum a len off = csum b len off := by
  have low : slice a 0 off = slice b 0 off :=
    slice_congr fun _ _ => same _ (by omega) (by omega)
  have high : slice a (off + 4) (len - (off + 4)) = slice b (off + 4) (len - (off + 4)) :=
    slice_congr fun _ _ => same _ (by omega) (by omega)
  rw [csum, csum, low, high]

theorem csum_putU32 [Crc32c] (b : Bytes) {len off v : Nat} (inside : off + 4 ≤ len) :
    csum (putU32 b off v) len off = csum b len off :=
  csum_congr inside fun i _ outside => putBE_of_not_mem (by omega)

theorem csum_clip [Crc32c] (b : Bytes) {len off : Nat} (inside : off + 4 ≤ len) :
    csum (clip len b) len off = csum b len off :=
  csum_congr inside fun _ hi _ => clip_of_lt b hi

theorem csum_lt [Crc32c] (b : Bytes) (len off : Nat) : csum b len off < 2 ^ 32 :=
  UInt32.toNat_lt _

theorem isPowerOfTwo_iff {n : Nat} : Superblock.isPowerOfTwo n = true ↔ ∃ k < 32, n = 2 ^ k := by
  simp [Superblock.isPowerOfTwo]

namespace Superblock

/-- The fields are within their widths and the block size is one that `parse` takes. -/
structure Fits (sb : Superblock) : Prop where
  compat : sb.compat < 2 ^ 64
  roCompat : sb.roCompat < 2 ^ 64
  incompat : sb.incompat < 2 ^ 64
  blocksize : isPowerOfTwo sb.blocksize = true ∧ 512 ≤ sb.blocksize
  inodesize : sb.inodesize < 2 ^ 16
  uuid : sb.uuid < 2 ^ 128
  diskName : sb.diskName.length = 16 ∧ ∀ u ∈ sb.diskName, u < 2 ^ 16
  rootIno : sb.rootIno < 2 ^ 64
  nextAg : sb.nextAg < 2 ^ 32
  agmapOffset : sb.agmapOffset < 2 ^ 64
  agmapLength : sb.agmapLength < 2 ^ 64
  journalStart : sb.journalStart < 2 ^ 64
  journalLength : sb.journalLength < 2 ^ 64
  kernelOffset : sb.kernelOffset < 2 ^ 64
  kernelEnd : sb.kernelEnd < 2 ^ 64
  freeBlocks : sb.freeBlocks < 2 ^ 64
  rsvdBlocks : sb.rsvdBlocks < 2 ^ 64
  fullBlocks : sb.fullBlocks < 2 ^ 64
  gen : sb.gen < 2 ^ 64
  journalSeq : sb.journalSeq < 2 ^ 64
  journalHead : sb.journalHead < 2 ^ 64

theorem Fits.blocksize_lt {sb : Superblock} (h : sb.Fits) : sb.blocksize < 2 ^ 32 := by
  obtain ⟨k, small, same⟩ := isPowerOfTwo_iff.mp h.blocksize.1
  rw [same]
  exact Nat.pow_lt_pow_right (by decide) small

theorem parse_clip [Crc32c] (b : Bytes) : parse (clip SB_SIZE b) = parse b := by
  have disk : getArr 2 (clip SB_SIZE b) 58 16 = getArr 2 b 58 16 :=
    getArr_congr fun i hi => clip_of_lt b (by simp only [SB_SIZE]; omega)
  have read : ∀ off n, off + n ≤ SB_SIZE → getBE (clip SB_SIZE b) off n = getBE b off n :=
    fun off n inside => getBE_clip b inside
  simp (disch := decide) only [parse, getU16, getU32, getU64, csum_clip, disk, read]
  rfl

theorem parse_congr [Crc32c] {a b : Bytes} (same : ∀ i < SB_SIZE, a i = b i) :
    parse a = parse b := by
  rw [← parse_clip a, ← parse_clip b, clip_congr same]

/-- The fields of a superblock that parses. -/
def read (b : Bytes) : Superblock := {
  compat := getU64 b 12
  roCompat := getU64 b 20
  incompat := getU64 b 28
  blocksize := getU32 b 36
  inodesize := getU16 b 40
  uuid := getBE b 42 16
  diskName := getArr 2 b 58 16
  rootIno := getU64 b 90
  nextAg := getU32 b 98
  agmapOffset := getU64 b 102
  agmapLength := getU64 b 110
  journalStart := getU64 b 118
  journalLength := getU64 b 126
  kernelOffset := getU64 b 134
  kernelEnd := getU64 b 142
  freeBlocks := getU64 b 150
  rsvdBlocks := getU64 b 158
  fullBlocks := getU64 b 166
  gen := getU64 b 174
  journalSeq := getU64 b 182
  journalHead := getU64 b 190 }

theorem parse_read [Crc32c] {b : Bytes} {sb : Superblock} (ok : parse b = .ok sb) :
    sb = read b := by
  rw [parse] at ok
  split at ok
  · cases ok
  · split at ok
    · cases ok
    · split at ok
      · cases ok
      · dsimp only at ok
        split at ok
        · cases ok
        · cases ok
          rfl

theorem getBE_toBytes [Crc32c] (sb : Superblock) {off n : Nat} (h : off + n ≤ 4 ∨ 8 ≤ off) :
    getBE sb.toBytes off n = getBE sb.fields off n :=
  getBE_putBE_disjoint _ h

theorem parse_toBytes [Crc32c] {sb : Superblock} (fits : sb.Fits) : parse sb.toBytes = .ok sb := by
  have magic : getU32 sb.toBytes 0 = SB_MAGIC := by
    simp (disch := omega) only [getU32, getBE_toBytes, fields, putU32, putU64, putU16,
      getBE_putBE_disjoint, getBE_putArr_disjoint, getBE_putBE]
    decide
  have sum : getU32 sb.toBytes 4 = csum sb.toBytes SB_SIZE 4 := by
    rw [toBytes, csum_putU32 _ (by decide), getU32, putU32, getBE_putBE]
    exact Nat.mod_eq_of_lt (csum_lt _ _ _)
  have version : getU32 sb.toBytes 8 = VERSION := by
    simp (disch := omega) only [getU32, getBE_toBytes, fields, putU32, putU64, putU16,
      getBE_putBE_disjoint, getBE_putArr_disjoint, getBE_putBE]
    decide
  have name : getArr 2 sb.toBytes 58 16 = sb.diskName := by
    have read : ∀ b, getArr 2 (putArr 2 b 58 sb.diskName) 58 16 = sb.diskName := by
      intro b
      have whole := getArr_putArr 2 sb.diskName b 58 fits.diskName.2
      rwa [fits.diskName.1] at whole
    obtain ⟨inner, same⟩ : ∃ inner, ∀ i < 32, sb.toBytes (58 + i) =
        putArr 2 inner 58 sb.diskName (58 + i) := by
      refine ⟨?inner, fun i hi => ?_⟩
      on_goal 2 =>
        simp (disch := omega) only [toBytes, fields, putU32, putU64, putBE_of_not_mem]
        rfl
    exact (getArr_congr same).trans (read inner)
  have size := fits.blocksize_lt
  have accepted : (!isPowerOfTwo sb.blocksize || decide (sb.blocksize < 512)) = false := by
    simp [fits.blocksize.1, fits.blocksize.2]
  rw [parse, if_neg (not_not_intro magic), if_neg (not_not_intro sum),
    if_neg (not_not_intro version)]
  simp (disch := omega) only [getU16, getU32, getU64, getBE_toBytes, name]
  simp (disch := omega) only [fields, putU32, putU64, putU16,
    getBE_putBE_disjoint, getBE_putArr_disjoint, getBE_putBE, Nat.reducePow]
  obtain ⟨_, _, _, _, _, _, _, _, _, _, _, _, _, _, _, _, _, _, _, _, _⟩ := fits
  simp (disch := omega) only [Nat.mod_eq_of_lt, accepted]
  rfl

end Superblock

namespace AgHeader

structure Fits (h : AgHeader) : Prop where
  agNum : h.agNum < 2 ^ 32
  gen : h.gen < 2 ^ 64
  length : h.length < 2 ^ 32
  freeBlocks : h.freeBlocks < 2 ^ 32
  rsvdBlocks : h.rsvdBlocks < 2 ^ 32
  fullBlocks : h.fullBlocks < 2 ^ 32
  allocRoot : h.allocRoot < 2 ^ 32
  inoHint : h.inoHint < 2 ^ 32
  dataHint : h.dataHint < 2 ^ 32
  tblArena : h.tblArena < 2 ^ 32

theorem getBE_toBytes [Crc32c] (h : AgHeader) {off n : Nat} (apart : off + n ≤ 4 ∨ 8 ≤ off) :
    getBE h.toBytes off n = getBE h.fields off n :=
  getBE_putBE_disjoint _ apart

theorem parse_clip [Crc32c] (b : Bytes) : parse (clip AGHDR_SIZE b) = parse b := by
  have read : ∀ off n, off + n ≤ AGHDR_SIZE → getBE (clip AGHDR_SIZE b) off n = getBE b off n :=
    fun off n inside => getBE_clip b inside
  simp (disch := decide) only [parse, getU32, getU64, csum_clip, read]
  rfl

theorem parse_cut [Crc32c] (h : AgHeader) : parse h.toBytes = .ok {
    agNum := h.agNum % 2 ^ 32
    gen := h.gen % 2 ^ 64
    length := h.length % 2 ^ 32
    freeBlocks := h.freeBlocks % 2 ^ 32
    rsvdBlocks := h.rsvdBlocks % 2 ^ 32
    fullBlocks := h.fullBlocks % 2 ^ 32
    allocRoot := h.allocRoot % 2 ^ 32
    inoHint := h.inoHint % 2 ^ 32
    dataHint := h.dataHint % 2 ^ 32
    tblArena := h.tblArena % 2 ^ 32 } := by
  have magic : getU32 h.toBytes 0 = AG_MAGIC := by
    simp (disch := omega) only [getU32, getBE_toBytes, fields, putU32, putU64,
      getBE_putBE_disjoint, getBE_putBE]
    decide
  have sum : getU32 h.toBytes 4 = csum h.toBytes AGHDR_SIZE 4 := by
    rw [toBytes, csum_putU32 _ (by decide), getU32, putU32, getBE_putBE]
    exact Nat.mod_eq_of_lt (csum_lt _ _ _)
  rw [parse, if_neg (not_not_intro magic), if_neg (not_not_intro sum)]
  simp (disch := omega) only [getU32, getU64, getBE_toBytes]
  simp (disch := omega) only [fields, putU32, putU64, getBE_putBE_disjoint, getBE_putBE,
    Nat.reducePow]

theorem parse_toBytes [Crc32c] {h : AgHeader} (fits : h.Fits) : parse h.toBytes = .ok h := by
  obtain ⟨_, _, _, _, _, _, _, _, _, _⟩ := fits
  rw [parse_cut]
  simp (disch := omega) only [Nat.mod_eq_of_lt]

end AgHeader

namespace AgMap

structure SegFits (s : AgSegment) : Prop where
  agBlock : s.agBlock < 2 ^ 32
  blocks : s.blocks < 2 ^ 32
  devOffset : s.devOffset < 2 ^ 64

structure EntryFits (e : AgEntry) : Prop where
  flags : e.flags < 2 ^ 16
  length : e.length < 2 ^ 32
  count : e.segs.length < 2 ^ 16
  segs : ∀ s ∈ e.segs, SegFits s

structure Fits (m : AgMap) : Prop where
  gen : m.gen < 2 ^ 64
  count : m.entries.length < 2 ^ 32
  entries : ∀ e ∈ m.entries, EntryFits e

theorem putSegs_of_not_mem (segs : List AgSegment) (b : Bytes) {off i : Nat}
    (h : i < off ∨ off + segs.length * 16 ≤ i) : putSegs b off segs i = b i := by
  induction segs generalizing b off with
  | nil => rfl
  | cons s rest ih =>
      rw [List.length_cons] at h
      rw [putSegs, ih _ (by omega)]
      simp (disch := omega) only [putU32, putU64, putBE_of_not_mem]

theorem parseSegs_putSegs {segs : List AgSegment} (fits : ∀ s ∈ segs, SegFits s) (b d : Bytes)
    {off used : Nat} (inside : off + segs.length * 16 ≤ used)
    (same : ∀ i, off ≤ i → i < off + segs.length * 16 → d i = putSegs b off segs i) :
    parseSegs d used segs.length off = .ok (segs, off + segs.length * 16) := by
  induction segs generalizing b off with
  | nil => rfl
  | cons s rest ih =>
      rw [List.length_cons] at inside same ⊢
      have within : off + 16 + rest.length * 16 ≤ used := by omega
      have tail := ih (fun s' member => fits s' (List.mem_cons_of_mem _ member)) _ within
        (fun i low high => same i (by omega) (by omega))
      have field : ∀ k n, k + n ≤ 16 → getBE d (off + k) n = getBE (putU64 (putU32 (putU32 b off
          s.agBlock) (off + 4) s.blocks) (off + 8) s.devOffset) (off + k) n := by
        intro k n small
        apply getBE_congr
        intro i hi
        rw [same _ (by omega) (by omega), putSegs, putSegs_of_not_mem _ _ (Or.inl (by omega))]
      obtain ⟨agBlock, blocks, devOffset⟩ := fits s List.mem_cons_self
      have first := field 0 4 (by decide)
      have second := field 4 4 (by decide)
      have third := field 8 8 (by decide)
      simp (disch := omega) only [putU32, putU64, getBE_putBE_disjoint, getBE_putBE, Nat.add_zero,
        Nat.reducePow, Nat.mod_eq_of_lt] at first second third
      have long : ¬ off + 16 > used := by omega
      simp only [parseSegs, if_neg long, tail, getU32, getU64, first, second, third]
      show Except.ok _ = _
      congr 2
      omega

theorem putEntries_end {capacity off off' : Nat} {entries : List AgEntry} {b b' : Bytes}
    (run : putEntries capacity b off entries = .ok (b', off')) : off ≤ off' ∧
      (off ≤ capacity → off' ≤ capacity) ∧ ∀ i, i < off ∨ off' ≤ i → b' i = b i := by
  induction entries generalizing b off with
  | nil =>
      injection run with pair
      injection pair with first second
      subst first second
      exact ⟨Nat.le_refl _, id, fun _ _ => rfl⟩
  | cons e rest ih =>
      rw [putEntries] at run
      split at run
      · cases run
      · obtain ⟨low, high, other⟩ := ih run
        refine ⟨by omega, fun _ => high (by omega), ?_⟩
        intro i outside
        rw [other i (by omega), putSegs_of_not_mem _ _ (by omega)]
        simp (disch := omega) only [putU16, putU32, putBE_of_not_mem]

theorem parseEntries_putEntries {capacity off off' : Nat} {entries : List AgEntry} {b b' d : Bytes}
    {used : Nat} (fits : ∀ e ∈ entries, EntryFits e)
    (run : putEntries capacity b off entries = .ok (b', off')) (inside : off' ≤ used)
    (same : ∀ i, off ≤ i → i < off' → d i = b' i) :
    parseEntries d used entries.length off = .ok entries := by
  induction entries generalizing b off with
  | nil => rfl
  | cons e rest ih =>
      rw [putEntries] at run
      split at run
      · cases run
      obtain ⟨low, _, other⟩ := putEntries_end run
      have tail := ih (fun e' member => fits e' (List.mem_cons_of_mem _ member)) run
        (fun i from_ upTo => same i (by omega) upTo)
      obtain ⟨flags, length, count, segs⟩ := fits e List.mem_cons_self
      have within : off + 8 + e.segs.length * 16 ≤ used := by omega
      have list := parseSegs_putSegs segs _ d within
        (fun i from_ upTo => (same i (by omega) (by omega)).trans (other i (by omega)))
      have field : ∀ k n, k + n ≤ 8 → getBE d (off + k) n =
          getBE (putU32 (putU16 (putU16 b off e.flags) (off + 2) e.segs.length) (off + 4) e.length)
            (off + k) n := by
        intro k n small
        apply getBE_congr
        intro i hi
        rw [same _ (by omega) (by omega), other _ (by omega),
          putSegs_of_not_mem _ _ (Or.inl (by omega))]
      have first := field 0 2 (by decide)
      have second := field 2 2 (by decide)
      have third := field 4 4 (by decide)
      simp (disch := omega) only [putU16, putU32, getBE_putBE_disjoint, getBE_putBE, Nat.add_zero,
        Nat.reducePow, Nat.mod_eq_of_lt] at first second third
      have long : ¬ off + 8 > used := by omega
      simp only [List.length_cons, parseEntries, if_neg long, getU16, getU32, first, second, third]
      rw [list]
      show (do
        let entries ← parseEntries d used rest.length (off + 8 + e.segs.length * 16)
        return (⟨e.flags, e.length, e.segs⟩ :: entries) : Except String (List AgEntry)) = _
      rw [tail]
      rfl

/-- A map that fits its copy reads back. -/
theorem parse_toBytes [Crc32c] {m : AgMap} {capacity : Nat} {b : Bytes} (fits : m.Fits)
    (small : capacity < 2 ^ 32) (room : AGMAP_HDR ≤ capacity) (run : m.toBytes capacity = .ok b) :
    parse (clip capacity b) capacity = .ok m := by
  have hdr : AGMAP_HDR = 24 := rfl
  rcases placed : putEntries capacity (putU32 (putU64 (putU32 zeros 0 AGMAP_MAGIC) 8 m.gen) 16
    m.entries.length) AGMAP_HDR m.entries with e | ⟨b₁, off⟩
  · simp only [toBytes, placed] at run
    cases run
  simp only [toBytes, placed] at run
  change Except.ok _ = Except.ok b at run
  injection run with content
  obtain ⟨low, high, other⟩ := putEntries_end placed
  have top := high room
  have csumField : csum (putU32 b₁ 20 off) off 4 < 2 ^ 32 := csum_lt _ _ _
  have read : ∀ k n, k + n ≤ AGMAP_HDR → getBE (clip capacity b) k n = getBE b k n :=
    fun k n inside => getBE_clip b (by omega)
  have base : ∀ k n, k + n ≤ AGMAP_HDR → getBE b₁ k n = getBE (putU32 (putU64 (putU32 zeros 0
      AGMAP_MAGIC) 8 m.gen) 16 m.entries.length) k n := by
    intro k n inside
    apply getBE_congr
    intro i hi
    exact other _ (by omega)
  have magic : getU32 (clip capacity b) 0 = AGMAP_MAGIC := by
    rw [getU32, read _ _ (by decide), ← content]
    simp (disch := omega) only [putU32, putU64, getBE_putBE_disjoint, base, getBE_putBE]
    decide
  have used : getU32 (clip capacity b) 20 = off := by
    rw [getU32, read _ _ (by decide), ← content]
    simp (disch := omega) only [putU32, getBE_putBE_disjoint, getBE_putBE, Nat.reducePow,
      Nat.mod_eq_of_lt]
  have sum : getU32 (clip capacity b) 4 = csum (clip capacity b) off 4 := by
    have same : csum (clip capacity b) off 4 = csum (putU32 b₁ 20 off) off 4 := by
      apply csum_congr (by omega)
      intro i hi outside
      rw [clip_of_lt _ (by omega), ← content, putU32, putBE_of_not_mem outside]
    rw [getU32, read _ _ (by decide), same, ← content]
    simp (disch := omega) only [putU32, getBE_putBE]
    exact Nat.mod_eq_of_lt csumField
  have count : getU32 (clip capacity b) 16 = m.entries.length := by
    have bound := fits.count
    rw [getU32, read _ _ (by decide), ← content]
    simp (disch := omega) only [putU32, putU64, getBE_putBE_disjoint, base, getBE_putBE,
      Nat.reducePow, Nat.mod_eq_of_lt]
  have gen : getU64 (clip capacity b) 8 = m.gen := by
    have bound := fits.gen
    rw [getU64, read _ _ (by decide), ← content]
    simp (disch := omega) only [putU32, putU64, getBE_putBE_disjoint, base, getBE_putBE,
      Nat.reducePow, Nat.mod_eq_of_lt]
  have copied : ∀ i, AGMAP_HDR ≤ i → i < off → clip capacity b i = b₁ i := by
    intro i from_ upTo
    rw [clip_of_lt _ (by omega), ← content]
    simp (disch := omega) only [putU32, putBE_of_not_mem]
  have entries := parseEntries_putEntries fits.entries placed (Nat.le_refl off) copied
  have goodMagic : ¬ (capacity < AGMAP_HDR ∨ getU32 (clip capacity b) 0 ≠ AGMAP_MAGIC) := by
    rw [magic]
    omega
  have goodLength : ¬ (off < AGMAP_HDR ∨ off > capacity) := by omega
  have goodSum := not_not_intro sum
  simp only [parse, if_neg goodMagic, used, if_neg goodLength, if_neg goodSum, count, entries, gen]
  rfl

end AgMap

section Records

variable [Crc32c] {bs seq : Nat} {targets : List Nat}

theorem descBlock_fields (bs : Nat) {off n : Nat} (h : off + n ≤ 4 ∨ 8 ≤ off) :
    getBE (descBlock bs seq targets) off n = getBE (descFields seq targets) off n :=
  getBE_putBE_disjoint _ h

theorem descBlock_magic : getU32 (descBlock bs seq targets) 0 = JDESC_MAGIC := by
  simp (disch := omega) only [getU32, descBlock_fields, descFields, putU32, putU64, JHDR,
    getBE_putBE_disjoint, getBE_putArr_disjoint, getBE_putBE]
  decide

theorem descBlock_csum (large : JHDR ≤ bs) :
    getU32 (descBlock bs seq targets) 4 = csum (descBlock bs seq targets) bs 4 := by
  have inside : 4 + 4 ≤ bs := by
    simp only [JHDR] at large
    omega
  rw [descBlock, csum_putU32 _ inside, getU32, putU32, getBE_putBE]
  exact Nat.mod_eq_of_lt (csum_lt _ _ _)

theorem descBlock_seq (bound : seq < 2 ^ 64) : getU64 (descBlock bs seq targets) 8 = seq := by
  simp (disch := omega) only [getU64, descBlock_fields, descFields, putU32, putU64, JHDR,
    getBE_putBE_disjoint, getBE_putArr_disjoint, getBE_putBE]
  exact Nat.mod_eq_of_lt bound

theorem descBlock_count (bound : targets.length < 2 ^ 32) :
    getU32 (descBlock bs seq targets) 16 = targets.length := by
  simp (disch := omega) only [getU32, descBlock_fields, descFields, putU32, putU64, JHDR,
    getBE_putArr_disjoint, getBE_putBE]
  exact Nat.mod_eq_of_lt bound

theorem descBlock_targets (fits : ∀ t ∈ targets, t < 2 ^ 64) :
    getArr 8 (descBlock bs seq targets) JHDR targets.length = targets := by
  calc
    _ = getArr 8 (descFields seq targets) JHDR targets.length :=
      getArr_congr fun i _ => putBE_of_not_mem (by simp only [JHDR]; omega)
    _ = targets := getArr_putArr 8 targets _ _ fits

theorem commitBlock_fields (bs : Nat) {txnCsum off n : Nat} (h : off + n ≤ 4 ∨ 8 ≤ off) :
    getBE (commitBlock bs seq txnCsum) off n = getBE (commitFields seq txnCsum) off n :=
  getBE_putBE_disjoint _ h

theorem commitBlock_magic {txnCsum : Nat} :
    getU32 (commitBlock bs seq txnCsum) 0 = JCOMMIT_MAGIC := by
  simp (disch := omega) only [getU32, commitBlock_fields, commitFields, putU32, putU64,
    getBE_putBE_disjoint, getBE_putBE]
  decide

theorem commitBlock_csum {txnCsum : Nat} (large : JHDR ≤ bs) :
    getU32 (commitBlock bs seq txnCsum) 4 = csum (commitBlock bs seq txnCsum) bs 4 := by
  have inside : 4 + 4 ≤ bs := by
    simp only [JHDR] at large
    omega
  rw [commitBlock, csum_putU32 _ inside, getU32, putU32, getBE_putBE]
  exact Nat.mod_eq_of_lt (csum_lt _ _ _)

theorem commitBlock_seq {txnCsum : Nat} (bound : seq < 2 ^ 64) :
    getU64 (commitBlock bs seq txnCsum) 8 = seq := by
  simp (disch := omega) only [getU64, commitBlock_fields, commitFields, putU32, putU64,
    getBE_putBE_disjoint, getBE_putBE]
  exact Nat.mod_eq_of_lt bound

theorem commitBlock_txnCsum {txnCsum : Nat} (bound : txnCsum < 2 ^ 32) :
    getU32 (commitBlock bs seq txnCsum) 16 = txnCsum := by
  simp (disch := omega) only [getU32, commitBlock_fields, commitFields, putU32, putU64,
    getBE_putBE]
  exact Nat.mod_eq_of_lt bound

theorem txnCsum_lt (desc : Bytes) (blocks : List Bytes) : txnCsum bs desc blocks < 2 ^ 32 :=
  UInt32.toNat_lt _

theorem txnCsum_clip (desc : Bytes) (blocks : List Bytes) :
    txnCsum bs (clip bs desc) (blocks.map (clip bs)) = txnCsum bs desc blocks := by
  have whole : ∀ b, slice (clip bs b) 0 bs = slice b 0 bs := fun b => slice_clip b (by omega)
  simp only [txnCsum, whole, List.foldl_map]

end Records

end FiveFs
