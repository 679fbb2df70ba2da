import FiveFs.Lib.Refine
import FiveFs.View

/-! Records, table blocks and the root table: what each access reads and writes, as stored marks. -/

namespace FiveFs

open Buffer Prog Refine

inductive CellState
  | free
  | rsvd
  | full
  deriving DecidableEq, Repr

abbrev Tree := Refine.Cell CellState Ref ALLOC_FANOUT

/-- A stored two-bit state and the reference beside it. -/
def cellMark (st : Nat) (r : Ref) : Mark CellState Ref :=
  if st = CELL_REFINED then .refined r
  else .leaf (if st = CELL_FREE then .free else if st = CELL_RSVD then .rsvd else .full)

@[simp] theorem cellMark_free (r : Ref) : cellMark CELL_FREE r = .leaf .free := rfl
@[simp] theorem cellMark_rsvd (r : Ref) : cellMark CELL_RSVD r = .leaf .rsvd := rfl
@[simp] theorem cellMark_full (r : Ref) : cellMark CELL_FULL r = .leaf .full := rfl
@[simp] theorem cellMark_refined (r : Ref) : cellMark CELL_REFINED r = .refined r := rfl

theorem cellMark_eq_free {st : Nat} {r : Ref} : cellMark st r = .leaf .free ↔ st = CELL_FREE := by
  constructor
  · intro h
    unfold cellMark at h
    split at h
    · cases h
    · split at h
      · assumption
      · split at h <;> cases h
  · rintro rfl
    rfl

theorem cellMark_eq_refined {st : Nat} {r r' : Ref} :
    cellMark st r = .refined r' ↔ st = CELL_REFINED ∧ r = r' := by
  constructor
  · intro h
    unfold cellMark at h
    split at h
    · cases h
      exact ⟨‹_›, rfl⟩
    · cases h
  · rintro ⟨rfl, rfl⟩
    rfl

theorem cellMark_eq_full {st : Nat} {r : Ref} (h : st < 4) :
    cellMark st r = .leaf .full ↔ st = CELL_FULL := by
  constructor
  · intro equal
    unfold cellMark at equal
    split at equal
    · cases equal
    · split at equal
      · cases equal
      · split at equal
        · cases equal
        · simp only [CELL_REFINED, CELL_FREE, CELL_RSVD, CELL_FULL] at *
          omega
  · rintro rfl
    rfl

-- records

theorem recState_lt (r : Bytes) (i : Nat) : recState r i < 4 := get2_lt r i

theorem recState_stateSet (r : Bytes) (i j : Nat) {st : Nat} (h : st < 4) :
    recState (recStateSet r i st) j = if i = j then st else recState r j :=
  get2_set2 r i j h

theorem recRef_stateSet (r : Bytes) {i : Nat} (j st : Nat) (hi : i < ALLOC_FANOUT) :
    recRef (recStateSet r i st) j = recRef r j := by
  have byte : i / 4 < 4 := Nat.div_lt_of_lt_mul hi
  have same : ∀ k, 4 ≤ k → recStateSet r i st k = r k := fun k hk => set2_of_ne (by omega)
  rw [recRef, recRef, getU32, getU16, getU32, getU16]
  have block : getBE (recStateSet r i st) (4 + j * 6) 4 = getBE r (4 + j * 6) 4 :=
    getBE_congr fun k _ => same _ (by omega)
  have index : getBE (recStateSet r i st) (4 + j * 6 + 4) 2 = getBE r (4 + j * 6 + 4) 2 :=
    getBE_congr fun k _ => same _ (by omega)
  rw [block, index]

theorem recState_refSet (r : Bytes) (i : Nat) (ref : Ref) {j : Nat} (hj : j < ALLOC_FANOUT) :
    recState (recRefSet r i ref) j = recState r j := by
  have byte : j / 4 < 4 := Nat.div_lt_of_lt_mul hj
  apply get2_congr
  rw [recRefSet, putU16, putBE_of_not_mem (by omega), putU32, putBE_of_not_mem (by omega)]

theorem recRef_refSet (r : Bytes) (i j : Nat) (ref : Ref) :
    recRef (recRefSet r i ref) j =
      if i = j then (ref.1 % 2 ^ 32, ref.2 % 2 ^ 16) else recRef r j := by
  by_cases same : i = j
  · subst same
    rw [if_pos rfl, recRef, recRefSet, getU32, getU16, putU16, putU32, getBE_putBE,
      getBE_putBE_disjoint _ (by omega), getBE_putBE]
    rfl
  · rw [if_neg same, recRef, recRefSet, getU32, getU16, putU16, putU32]
    rw [getBE_putBE_disjoint _ (by omega), getBE_putBE_disjoint _ (by omega)]
    rw [getBE_putBE_disjoint _ (by omega), getBE_putBE_disjoint _ (by omega)]
    rfl

/-- The mark of a child. -/
def recMark (r : Bytes) (i : Fin ALLOC_FANOUT) : Mark CellState Ref :=
  cellMark (recState r i) (recRef r i)

theorem recMark_stateSet (r : Bytes) (i j : Fin ALLOC_FANOUT) {st : Nat} (h : st < 4) :
    recMark (recStateSet r i st) j = if i = j then cellMark st (recRef r i) else recMark r j := by
  rw [recMark, recState_stateSet r i j h, recRef_stateSet r j st i.isLt]
  by_cases same : i = j
  · subst same
    simp
  · have different : i.val ≠ j.val := fun equal => same (Fin.ext equal)
    simp [same, different, recMark]

theorem recMark_set (r : Bytes) (i j : Fin ALLOC_FANOUT) {st : Nat} {ref : Ref} (h : st < 4)
    (block : ref.1 < 2 ^ 32) (index : ref.2 < 2 ^ 16) :
    recMark (recRefSet (recStateSet r i st) i ref) j =
      if i = j then cellMark st ref else recMark r j := by
  rw [recMark, recState_refSet _ _ _ j.isLt, recState_stateSet r i j h, recRef_refSet,
    recRef_stateSet r j st i.isLt, Nat.mod_eq_of_lt block, Nat.mod_eq_of_lt index]
  by_cases same : i = j
  · subst same
    simp
  · have different : i.val ≠ j.val := fun equal => same (Fin.ext equal)
    simp [same, different, recMark]

theorem recMark_fill (r : Bytes) (start m : Nat) (j : Fin ALLOC_FANOUT) {st : Nat} (h : st < 4)
    (leaf : st ≠ CELL_REFINED) (inside : start + m ≤ ALLOC_FANOUT) :
    recMark (recFill r start m st) j =
      if start ≤ j ∧ j < start + m then cellMark st (0, 0) else recMark r j := by
  induction m generalizing r start with
  | zero =>
      rw [recFill, List.range'_zero, List.foldl_nil, if_neg]
      omega
  | succ m ih =>
      have rest : recFill r start (m + 1) st = recFill (recStateSet r start st) (start + 1) m
          st := by
        rw [recFill, List.range'_succ, List.foldl_cons, recFill]
      have first := recMark_stateSet r ⟨start, by omega⟩ j h
      rw [rest, ih _ _ (by omega), first]
      have state : ∀ ref ref', cellMark st ref = cellMark st ref' := by
        intro ref ref'
        rw [cellMark, cellMark, if_neg leaf, if_neg leaf]
      by_cases here : start = j.val
      · have fin : (⟨start, by omega⟩ : Fin ALLOC_FANOUT) = j := Fin.ext here
        rw [if_neg (by omega), if_pos fin, if_pos (by omega)]
        exact state _ _
      · have fin : (⟨start, by omega⟩ : Fin ALLOC_FANOUT) ≠ j := fun equal =>
          here (congrArg Fin.val equal)
        rw [if_neg fin]
        by_cases later : start + 1 ≤ j ∧ j < start + 1 + m
        · rw [if_pos later, if_pos (by omega)]
        · rw [if_neg later, if_neg (by omega)]

@[simp] theorem recMark_zeros (i : Fin ALLOC_FANOUT) : recMark zeros i = .leaf .free := by
  have state : recState zeros i = CELL_FREE := get2_zeros _
  rw [recMark, state, cellMark_free]

theorem recMark_congr {r r' : Bytes} (same : ∀ k < REC_SIZE, r k = r' k) (i : Fin ALLOC_FANOUT) :
    recMark r i = recMark r' i := by
  have small : i.val < 16 := i.isLt
  have size : REC_SIZE = 128 := rfl
  have state : recState r i = recState r' i := get2_congr (same _ (by omega))
  have block : getU32 r (4 + i * 6) = getU32 r' (4 + i * 6) :=
    getBE_congr fun k hk => same _ (by omega)
  have index : getU16 r (4 + i * 6 + 4) = getU16 r' (4 + i * 6 + 4) :=
    getBE_congr fun k hk => same _ (by omega)
  rw [recMark, recMark, state, recRef, recRef, block, index]

theorem recRef_clip (data : Bytes) {i : Nat} (hi : i < ALLOC_FANOUT) :
    recRef (clip REC_SIZE data) i = recRef data i := by
  rw [ALLOC_FANOUT] at hi
  have size : REC_SIZE = 128 := rfl
  have block : getU32 (clip REC_SIZE data) (4 + i * 6) = getU32 data (4 + i * 6) :=
      getBE_clip _ (by omega)
  have index : getU16 (clip REC_SIZE data) (4 + i * 6 + 4) = getU16 data (4 + i * 6 + 4) :=
    getBE_clip _ (by omega)
  rw [recRef, recRef, block, index]

theorem recRef_zeros (i : Nat) : recRef zeros i = (0, 0) := by
  rw [recRef, getU32, getU16, getBE_zeros, getBE_zeros]

theorem recAll_iff {r : Bytes} : recAll r CELL_FREE = true ↔ ∀ i, recMark r i = .leaf .free := by
  rw [recAll, List.all_eq_true]
  constructor
  · intro all i
    have state := all i.val (List.mem_range.mpr i.isLt)
    rw [recMark, cellMark_eq_free]
    exact beq_iff_eq.mp state
  · intro all i hi
    have state := all ⟨i, List.mem_range.mp hi⟩
    rw [recMark, cellMark_eq_free] at state
    exact beq_iff_eq.mpr state

-- table blocks

/-- What `tbl_read` accepts. -/
def TblOk [Crc32c] (bs : Nat) (buf : Bytes) : Prop :=
  getU32 buf 0 = ALLOC_MAGIC ∧ getU32 buf 4 = csum buf bs 4

/-- What `tbl_write` stores. -/
def tblSeal [Crc32c] (bs : Nat) (buf : Bytes) : Bytes :=
  let buf := putU64 buf 8 (getU64 buf 8 + 1)
  clip bs (putU32 buf 4 (csum buf bs 4))

def recAt (buf : Bytes) (idx : Nat) : Bytes := clip REC_SIZE (drop (recOff idx) buf)

/-- The record of the table block lies in the block. -/
def RecIn (bs idx : Nat) : Prop := recOff idx + REC_SIZE ≤ bs

theorem recIn_of_lt {bs idx : Nat} (h : idx < recsPerBlock bs) : RecIn bs idx := by
  rw [recsPerBlock, REC_SIZE] at h
  rw [RecIn, recOff, REC_SIZE]
  omega

section Sealing

variable [Crc32c] {bs : Nat} {buf : Bytes}

theorem getBE_tblSeal {off n : Nat} (apart : off + n ≤ 4 ∨ 16 ≤ off) (inside : off + n ≤ bs) :
    getBE (tblSeal bs buf) off n = getBE buf off n := by
  rw [tblSeal, getBE_clip _ inside, putU32, getBE_putBE_disjoint _ (by omega), putU64,
    getBE_putBE_disjoint _ (by omega)]

theorem tblSeal_ok (large : 16 ≤ bs) (magic : getU32 buf 0 = ALLOC_MAGIC) :
    TblOk bs (tblSeal bs buf) := by
  constructor
  · rw [getU32, getBE_tblSeal (by omega) (by omega)]
    exact magic
  · rw [tblSeal, csum_clip _ (by omega), csum_putU32 _ (by omega), getU32, getBE_clip _ (by omega),
      putU32, getBE_putBE]
    exact Nat.mod_eq_of_lt (csum_lt _ _ _)

theorem recAt_tblSeal {idx : Nat} (inside : RecIn bs idx) :
    recAt (tblSeal bs buf) idx = recAt buf idx := by
  rw [RecIn] at inside
  have after : 16 ≤ recOff idx := by
    rw [recOff, REC_SIZE]
    omega
  apply clip_congr
  intro k hk
  rw [tblSeal, drop, clip_of_lt _ (by omega), putU32, putBE_of_not_mem (by omega), putU64,
    putBE_of_not_mem (by omega)]
  rfl

omit [Crc32c] in
theorem recAt_copyAt (buf data : Bytes) (idx idx' : Nat) :
    recAt (copyAt buf (recOff idx) REC_SIZE data) idx' =
      if idx = idx' then clip REC_SIZE data else recAt buf idx' := by
  by_cases same : idx = idx'
  · subst same
    rw [if_pos rfl]
    apply clip_congr
    intro k hk
    rw [drop, copyAt_of_mem (by omega)]
    congr 1
    omega
  · rw [if_neg same]
    apply clip_congr
    intro k hk
    have apart : recOff idx + REC_SIZE ≤ recOff idx' ∨ recOff idx' + REC_SIZE ≤ recOff idx := by
      simp only [recOff, REC_SIZE]
      omega
    rw [drop, drop, copyAt_of_not_mem (by omega)]

omit [Crc32c] in
theorem recAt_putU32 {off v idx : Nat} (header : off + 4 ≤ REC_SIZE) :
    recAt (putU32 buf off v) idx = recAt buf idx := by
  have after : REC_SIZE ≤ recOff idx := by
    rw [recOff]
    exact Nat.le_mul_of_pos_right _ (by omega)
  apply clip_congr
  intro k hk
  rw [drop, drop, putU32, putBE_of_not_mem (by omega)]

omit [Crc32c] in
theorem getU32_copyAt_rec {data : Bytes} {off idx : Nat} (header : off + 4 ≤ REC_SIZE) :
    getU32 (copyAt buf (recOff idx) REC_SIZE data) off = getU32 buf off := by
  have after : REC_SIZE ≤ recOff idx := by
    rw [recOff]
    exact Nat.le_mul_of_pos_right _ (by omega)
  exact getBE_copyAt_disjoint _ _ (by omega)

end Sealing

-- the store of an AG

/-- An AG as it was built: its place, its size, its root table, and the cells reserved for metadata,
the partial tail and the backup superblock. -/
structure Ag where
  num : Nat
  length : Nat
  root : Nat
  blocksize : Nat
  reserved : Nat → Prop
  num_lt : num < 2 ^ 32
  length_lt : length < 2 ^ 32
  power : ∃ k, blocksize = 2 ^ k
  large : 2048 ≤ blocksize
  root_le : root + (rtGeometry length blocksize).2 ≤ length
  hdr_lt : agHeaderBlock num < root
  head : ∀ l < root + (rtGeometry length blocksize).2, reserved (l / CELL_BLOCKS)
  tail : ∀ c, c * CELL_BLOCKS < length → length < (c + 1) * CELL_BLOCKS → reserved c

namespace Ag

/-- What the sizes of an AG satisfy. -/
structure Sized (num length root blocksize : Nat) (reserved : Nat → Prop) : Prop where
  num_lt : num < 2 ^ 32
  length_lt : length < 2 ^ 32
  power : ∃ k, blocksize = 2 ^ k
  large : 2048 ≤ blocksize
  root_le : root + (rtGeometry length blocksize).2 ≤ length
  hdr_lt : agHeaderBlock num < root
  head : ∀ l < root + (rtGeometry length blocksize).2, reserved (l / CELL_BLOCKS)
  tail : ∀ c, c * CELL_BLOCKS < length → length < (c + 1) * CELL_BLOCKS → reserved c

def ofSized {num length root blocksize : Nat} {reserved : Nat → Prop}
    (h : Sized num length root blocksize reserved) : Ag where
  num := num
  length := length
  root := root
  blocksize := blocksize
  reserved := reserved
  num_lt := h.num_lt
  length_lt := h.length_lt
  power := h.power
  large := h.large
  root_le := h.root_le
  hdr_lt := h.hdr_lt
  head := h.head
  tail := h.tail

variable (A : Ag) (v : Nat → Bytes)

def cells : Nat := (A.length + CELL_BLOCKS - 1) / CELL_BLOCKS
def blk (l : Nat) : Nat := blkAddr A.num l
def hdrBlk : Nat := A.blk (agHeaderBlock A.num)

/-- Bytes of the root table, and the blocks that hold it. -/
def tableLen : Nat := (A.cells + 3) / 4 + A.cells * 6
def tableBlocks : Nat := (A.tableLen + A.blocksize - 1) / A.blocksize
def Root (l : Nat) : Prop := A.root ≤ l ∧ l < A.root + A.tableBlocks

/-- The root table, over all its blocks. -/
def table : Bytes := fun off => v (A.blk (A.root + off / A.blocksize)) (off % A.blocksize)

/-- The reference of the cell straddles two blocks of the root table. -/
def Split (c : Nat) : Prop := A.blocksize < rtRefOff A.cells c % A.blocksize + 6

def rootRef (c : Nat) : Ref :=
  (getU32 (A.table v) (rtRefOff A.cells c), getU16 (A.table v) (rtRefOff A.cells c + 4))

def rootMark (c : Nat) : Mark CellState Ref := cellMark (cellGet (A.table v) c) (A.rootRef v c)

def kidMark (r : Ref) (i : Fin ALLOC_FANOUT) : Mark CellState Ref :=
  recMark (recAt (v (A.blk r.1)) r.2) i

/-- The block has the magic of a table block. -/
def Magic (l : Nat) : Prop := getU32 (v (A.blk l)) 0 = ALLOC_MAGIC

/-- The record is marked used. -/
def Used (r : Ref) : Prop := A.Magic v r.1 ∧ (getU32 (v (A.blk r.1)) 16).testBit r.2 = true

/-- The header is one of this AG. -/
structure Of (hdr : AgHeader) : Prop where
  num : hdr.agNum = A.num
  length : hdr.length = A.length
  root : hdr.allocRoot = A.root

/-- The AG is mapped, and the volume has its block size. -/
structure On (w : Work) : Prop where
  mapped : ∀ l < A.length, w.Mapped (A.blk l)
  size : w.blocksize = A.blocksize

/-- `w'` is `w` with `data` in the root table. -/
structure Tabled (w w' : Work) (data : Bytes) : Prop where
  fs : w'.fs = w.fs
  data : ∀ i < A.tableLen, A.table w'.view i = data i
  frame : ∀ b, (∀ l, A.Root l → b ≠ A.blk l) → w'.view b = w.view b

theorem blk_inj {l l' : Nat} : A.blk l = A.blk l' ↔ l = l' := by
  rw [blk, blk, blkAddr, blkAddr, Nat.add_left_cancel_iff]

theorem update_blk (l l' : Nat) (b : Bytes) :
    Function.update v (A.blk l) b (A.blk l') = if l' = l then b else v (A.blk l') := by
  by_cases same : l' = l
  · subst same
    simp
  · rw [if_neg same, Function.update_of_ne]
    exact fun equal => same (A.blk_inj.mp equal)

theorem cell_bounds {c : Nat} (h : c < A.cells) : c * CELL_BLOCKS < A.length := by
  rw [cells, CELL_BLOCKS] at h
  rw [CELL_BLOCKS]
  omega

theorem lt_cells {l : Nat} (h : l < A.length) : l / CELL_BLOCKS < A.cells := by
  rw [cells, CELL_BLOCKS]
  omega

theorem root_end : A.root + A.tableBlocks ≤ A.length := A.root_le

theorem length_pos : 0 < A.length := by
  have root := A.root_end
  have header := A.hdr_lt
  omega

theorem cells_pos : 0 < A.cells := by
  have some := A.length_pos
  rw [cells, CELL_BLOCKS]
  omega

theorem whole {c : Nat} (h : c < A.cells) (open' : ¬ A.reserved c) :
    (c + 1) * CELL_BLOCKS ≤ A.length := by
  by_contra short
  exact open' (A.tail c (A.cell_bounds h) (Nat.lt_of_not_le short))

theorem root_reserved {l : Nat} (h : A.Root l) : A.reserved (l / CELL_BLOCKS) := A.head l h.2

theorem hdr_reserved : A.reserved (agHeaderBlock A.num / CELL_BLOCKS) := by
  have header := A.hdr_lt
  exact A.head _ (by omega)

theorem reserved_zero : A.reserved 0 := by
  have header := A.hdr_lt
  have head := A.head 0 (by omega)
  rwa [Nat.zero_div] at head

theorem reserved_ne {c : Nat} (open' : ¬ A.reserved c) : c ≠ 0 := by
  rintro rfl
  exact open' A.reserved_zero

theorem blocksize_pos : 0 < A.blocksize := Nat.lt_of_lt_of_le (by decide) A.large

theorem block_lt {off : Nat} (h : off < A.tableLen) : off / A.blocksize < A.tableBlocks := by
  rw [tableBlocks, Nat.div_lt_iff_lt_mul A.blocksize_pos]
  have size := Nat.div_add_mod (A.tableLen + A.blocksize - 1) A.blocksize
  have rest := Nat.mod_lt (A.tableLen + A.blocksize - 1) A.blocksize_pos
  rw [Nat.mul_comm] at size
  omega

theorem root_block {off : Nat} (h : off < A.tableLen) : A.Root (A.root + off / A.blocksize) :=
  ⟨Nat.le_add_right _ _, Nat.add_lt_add_left (A.block_lt h) _⟩

theorem state_lt {c : Nat} (h : c < A.cells) : c / 4 < A.tableLen := by
  rw [tableLen]
  omega

theorem ref_lt {c : Nat} (h : c < A.cells) : rtRefOff A.cells c + 6 ≤ A.tableLen := by
  rw [tableLen, rtRefOff]
  omega

variable {A v} {w w' : Work} {hdr : AgHeader}

theorem Root.lt {l : Nat} (h : A.Root l) : l < A.length := Nat.lt_of_lt_of_le h.2 A.root_end

theorem Root.ne_hdr {l : Nat} (h : A.Root l) : l ≠ agHeaderBlock A.num := by
  have header := A.hdr_lt
  have low := h.1
  omega

theorem On.kin (on : A.On w) (kin : w.Kin w') : A.On w' where
  mapped l hl := kin.mapped (on.mapped l hl)
  size := kin.blocksize.trans on.size

theorem On.put (on : A.On w) (blk : Nat) (data : Bytes) : A.On (w.put blk data) :=
  on.kin ((Work.Kin.refl w).put blk data)

theorem On.blocksize (on : A.On w) : 2048 ≤ w.blocksize := on.size.symm ▸ A.large

namespace Tabled

variable {data : Bytes}

theorem kin (h : A.Tabled w w' data) : w.Kin w' := by
  constructor
  · rw [h.fs]
  · rw [h.fs]
  · rw [h.fs]

theorem sb (h : A.Tabled w w' data) : w'.fs.sb = w.fs.sb := by rw [h.fs]

theorem view (h : A.Tabled w w' data) {l : Nat} (other : ¬ A.Root l) :
    w'.view (A.blk l) = w.view (A.blk l) := by
  apply h.frame
  intro l' root equal
  exact other (A.blk_inj.mp equal ▸ root)

theorem congr {data' : Bytes} (h : A.Tabled w w' data) (same : ∀ i < A.tableLen, data i = data' i) :
    A.Tabled w w' data' :=
  ⟨h.fs, fun i hi => (h.data i hi).trans (same i hi), h.frame⟩

theorem state (h : A.Tabled w w' data) {c : Nat} (hc : c < A.cells) :
    cellGet (A.table w'.view) c = cellGet data c :=
  get2_congr (h.data _ (A.state_lt hc))

end Tabled

end Ag

theorem cells_eq (A : Ag) {hdr : AgHeader} (of : A.Of hdr) (bs : Nat) :
    (rtGeometry hdr.length bs).1 = A.cells := by
  rw [of.length]
  rfl

section RootMarks

variable {A : Ag} {v v' : Nat → Bytes} {w w' : Work} {c c' : Nat}

theorem table_frame (same : ∀ l, A.Root l → v' (A.blk l) = v (A.blk l)) :
    ∀ i < A.tableLen, A.table v' i = A.table v i := by
  intro i hi
  rw [Ag.table, Ag.table, same _ (A.root_block hi)]

theorem rootMark_congr (same : ∀ i < A.tableLen, A.table v' i = A.table v i) (hc : c < A.cells) :
    A.rootMark v' c = A.rootMark v c := by
  have inside := A.ref_lt hc
  have state : cellGet (A.table v') c = cellGet (A.table v) c := get2_congr (same _ (A.state_lt hc))
  have block : getU32 (A.table v') (rtRefOff A.cells c) = getU32 (A.table v) (rtRefOff A.cells c) :=
    getBE_congr fun k hk => same _ (by omega)
  have index : getU16 (A.table v') (rtRefOff A.cells c + 4) = getU16 (A.table v)
      (rtRefOff A.cells c + 4) :=
    getBE_congr fun k hk => same _ (by omega)
  rw [Ag.rootMark, Ag.rootMark, Ag.rootRef, Ag.rootRef, state, block, index]

theorem rootMark_frame (same : ∀ l, A.Root l → v' (A.blk l) = v (A.blk l)) (hc : c < A.cells) :
    A.rootMark v' c = A.rootMark v c :=
  rootMark_congr (table_frame same) hc

theorem rootRef_tabled {data : Bytes} (put : A.Tabled w w' data) (hc : c < A.cells)
    (same : ∀ k < 6, data (rtRefOff A.cells c + k) = A.table w.view (rtRefOff A.cells c + k)) :
    A.rootRef w'.view c = A.rootRef w.view c := by
  have inside := A.ref_lt hc
  have bytes : ∀ k < 6, A.table w'.view (rtRefOff A.cells c + k) =
      A.table w.view (rtRefOff A.cells c + k) := by
    intro k hk
    rw [put.data _ (by omega), same k hk]
  have block : getU32 (A.table w'.view) (rtRefOff A.cells c) =
      getU32 (A.table w.view) (rtRefOff A.cells c) := getBE_congr fun k hk => bytes k (by omega)
  have index : getU16 (A.table w'.view) (rtRefOff A.cells c + 4) =
      getU16 (A.table w.view) (rtRefOff A.cells c + 4) :=
    getBE_congr fun k hk => by simpa only [Nat.add_assoc] using bytes (4 + k) (by omega)
  rw [Ag.rootRef, Ag.rootRef, block, index]

theorem rootRef_stateSet {st : Nat} (put : A.Tabled w w' (cellSet (A.table w.view) c st))
    (hc : c < A.cells)
    (hc' : c' < A.cells) : A.rootRef w'.view c' = A.rootRef w.view c' := by
  apply rootRef_tabled put hc'
  intro k _
  apply set2_of_ne
  rw [rtRefOff]
  omega

theorem rootState_stateSet {st : Nat} (put : A.Tabled w w' (cellSet (A.table w.view) c st))
    (hc' : c' < A.cells)
    (h : st < 4) : cellGet (A.table w'.view) c' = if c = c' then st else cellGet (A.table w.view)
    c' := by
  rw [put.state hc', cellGet, cellSet, get2_set2 _ _ _ h]
  rfl

theorem rootMark_stateSet {st : Nat} (put : A.Tabled w w' (cellSet (A.table w.view) c st))
    (hc : c < A.cells) (hc' : c' < A.cells) (h : st < 4) :
    A.rootMark w'.view c' =
      if c' = c then cellMark st (A.rootRef w.view c) else A.rootMark w.view c' := by
  rw [Ag.rootMark, rootState_stateSet put hc' h, rootRef_stateSet put hc hc']
  by_cases same : c' = c
  · rw [if_pos same, if_pos same.symm, same]
  · rw [if_neg same, if_neg (Ne.symm same)]
    rfl

/-- The six bytes of a reference. -/
def sixBytes (ref : Ref) : Bytes := putU16 (putU32 zeros 0 ref.1) 4 ref.2

theorem rootState_refSet {ref : Ref}
    (put : A.Tabled w w' (copyAt (A.table w.view) (rtRefOff A.cells c) 6 (sixBytes ref)))
    (hc' : c' < A.cells) :
    cellGet (A.table w'.view) c' = cellGet (A.table w.view) c' := by
  rw [put.state hc']
  apply get2_congr
  rw [copyAt_of_not_mem]
  rw [rtRefOff]
  omega

theorem rootRef_refSet {ref : Ref}
    (put : A.Tabled w w' (copyAt (A.table w.view) (rtRefOff A.cells c) 6 (sixBytes ref)))
    (hc' : c' < A.cells) (block : ref.1 < 2 ^ 32) (index : ref.2 < 2 ^ 16) :
    A.rootRef w'.view c' = if c' = c then ref else A.rootRef w.view c' := by
  by_cases same : c' = c
  · subst same
    have inside := A.ref_lt hc'
    have low : getU32 (A.table w'.view) (rtRefOff A.cells c') = ref.1 := by
      have bytes : getU32 (A.table w'.view) (rtRefOff A.cells c') = getU32 (sixBytes ref) 0 := by
        apply getBE_congr
        intro k hk
        rw [put.data _ (by omega), copyAt_of_mem (by omega), Nat.zero_add, Nat.add_sub_cancel_left]
      rw [bytes, sixBytes, getU32, putU16, getBE_putBE_disjoint _ (by decide), putU32, getBE_putBE]
      exact Nat.mod_eq_of_lt block
    have high : getU16 (A.table w'.view) (rtRefOff A.cells c' + 4) = ref.2 := by
      have bytes : getU16 (A.table w'.view) (rtRefOff A.cells c' + 4) = getU16 (sixBytes ref)
          4 := by
        apply getBE_congr
        intro k hk
        rw [put.data _ (by omega), copyAt_of_mem (by omega)]
        congr 1
        omega
      rw [bytes, sixBytes, getU16, putU16, getBE_putBE]
      exact Nat.mod_eq_of_lt index
    rw [if_pos rfl, Ag.rootRef, low, high]
  · rw [if_neg same]
    apply rootRef_tabled put hc'
    intro k hk
    apply copyAt_of_not_mem
    simp only [rtRefOff]
    omega

theorem rootMark_refSet {ref : Ref}
    (put : A.Tabled w w' (copyAt (A.table w.view) (rtRefOff A.cells c) 6 (sixBytes ref)))
    (hc' : c' < A.cells) (block : ref.1 < 2 ^ 32) (index : ref.2 < 2 ^ 16) :
    A.rootMark w'.view c' =
      if c' = c then cellMark (cellGet (A.table w.view) c) ref else A.rootMark w.view c' := by
  rw [Ag.rootMark, rootState_refSet put hc', rootRef_refSet put hc' block index]
  by_cases same : c' = c
  · rw [if_pos same, if_pos same, same]
  · rw [if_neg same, if_neg same]
    rfl

end RootMarks

namespace Work

variable {A : Ag} {w : Work} {hdr : AgHeader}

theorem rtByte_run (on : A.On w) (of : A.Of hdr) {off : Nat} (inside : off < A.tableLen) :
    rtByte hdr off w = (.ok (A.blk (A.root + off / A.blocksize), off % A.blocksize,
      w.view (A.blk (A.root + off / A.blocksize))), w) := by
  have read : txnRead (A.blk (A.root + off / A.blocksize)) w =
      (.ok (w.view (A.blk (A.root + off / A.blocksize))), w) :=
    txnRead_run (on.mapped _ (A.root_block inside).lt)
  rw [rtByte, bind_ok _ _ (get_run (s := w)), on.size, of.num, of.root]
  exact bind_ok _ _ read

theorem rtState_run (on : A.On w) (of : A.Of hdr) {c : Nat} (hc : c < A.cells) :
    rtState hdr c w = (.ok (cellGet (A.table w.view) c), w) := by
  rw [rtState, bind_ok _ _ (rtByte_run on of (A.state_lt hc))]
  rfl

theorem tabled_put (on : A.On w) {off : Nat} (inside : off < A.tableLen) (x : UInt8) :
    A.Tabled w (w.put (A.blk (A.root + off / A.blocksize)) fun k =>
      if k = off % A.blocksize then x else w.view (A.blk (A.root + off / A.blocksize)) k)
      fun i => if i = off then x else A.table w.view i := by
  refine ⟨rfl, fun i hi => ?_, fun b other => ?_⟩
  · have small := Nat.mod_lt i A.blocksize_pos
    rw [Ag.table, view_put, on.size, Ag.update_blk]
    by_cases block : A.root + i / A.blocksize = A.root + off / A.blocksize
    · have quot : i / A.blocksize = off / A.blocksize := Nat.add_left_cancel block
      have split := Nat.div_add_mod i A.blocksize
      have split' := Nat.div_add_mod off A.blocksize
      rw [if_pos block, clip_of_lt _ small]
      by_cases here : i = off
      · rw [if_pos (here ▸ rfl), if_pos here]
      · have rest : i % A.blocksize ≠ off % A.blocksize := by
          intro equal
          rw [quot, equal] at split
          exact here (split.symm.trans split')
        rw [if_neg rest, if_neg here, Ag.table, quot]
    · have here : i ≠ off := fun equal => block (equal ▸ rfl)
      rw [if_neg block, if_neg here]
      rfl
  · rw [view_put, Function.update_of_ne (other _ (A.root_block inside))]

theorem rtStateSet_run (on : A.On w) (of : A.Of hdr) {c : Nat} (hc : c < A.cells) (st : Nat) :
    ∃ w', rtStateSet hdr c st w = (.ok (), w') ∧ A.Tabled w w' (cellSet (A.table w.view) c st) := by
  have inside := A.state_lt hc
  have put := tabled_put on inside (byteSet2 (A.table w.view (c / 4)) (c % 4) st)
  refine ⟨_, ?_, put.congr fun i _ => ?_⟩
  · rw [rtStateSet, bind_ok _ _ (rtByte_run on of inside)]
    dsimp only
    rw [txnWrite_run]
    congr 2
    funext k
    by_cases here : k = c / 4 % A.blocksize
    · rw [if_pos here, if_pos here, here]
      rfl
    · rw [if_neg here, if_neg here]
  · rw [cellSet, set2]
    by_cases here : i = c / 4
    · rw [if_pos here, if_pos here, here]
    · rw [if_neg here, if_neg here]

theorem rtRef_wp (on : A.On w) (of : A.Of hdr) {c : Nat} (hc : c < A.cells) {Q : Ref → Work → Prop}
    {E : Err → Work → Prop} (ok : ¬ A.Split c → Q (A.rootRef w.view c) w)
    (split : A.Split c → E (.panic "range end index out of range for slice") w) :
    wp (rtRef hdr c) Q E w := by
  have inside := A.ref_lt hc
  rw [rtRef, wp_bind, wp_get]
  dsimp only
  rw [cells_eq A of, wp_bind, wp_run (rtByte_run on of (by omega))]
  dsimp only
  rw [wp_ite, on.size]
  split
  · rename_i straddles
    exact split straddles
  · rename_i whole
    have bytes : ∀ k < 6, w.view (A.blk (A.root + rtRefOff A.cells c / A.blocksize))
        (rtRefOff A.cells c % A.blocksize + k) = A.table w.view (rtRefOff A.cells c + k) := by
      intro k hk
      have quot := Nat.div_add_mod (rtRefOff A.cells c) A.blocksize
      obtain ⟨div, mod⟩ := (Nat.div_mod_unique A.blocksize_pos).mpr
        (⟨by omega, by omega⟩ : rtRefOff A.cells c % A.blocksize + k +
          A.blocksize * (rtRefOff A.cells c / A.blocksize) = rtRefOff A.cells c + k ∧
          rtRefOff A.cells c % A.blocksize + k < A.blocksize)
      rw [Ag.table, div, mod]
    have block : getU32 (w.view (A.blk (A.root + rtRefOff A.cells c / A.blocksize)))
        (rtRefOff A.cells c % A.blocksize) = getU32 (A.table w.view) (rtRefOff A.cells c) :=
      getBE_congr fun k hk => bytes k (by omega)
    have index : getU16 (w.view (A.blk (A.root + rtRefOff A.cells c / A.blocksize)))
        (rtRefOff A.cells c % A.blocksize + 4) = getU16 (A.table w.view) (rtRefOff A.cells c + 4) :=
      getBE_congr fun k hk => by simpa only [Nat.add_assoc] using bytes (4 + k) (by omega)
    have whole' := ok whole
    rw [Ag.rootRef] at whole'
    rwa [wp_pure, block, index]

theorem rtBytesSet_run (of : A.Of hdr) {base : Nat} (six : Bytes) (m i : Nat) {w : Work}
    (on : A.On w)
    (inside : base + i + m ≤ A.tableLen) :
    ∃ w', rtBytesSet hdr base six (List.range' i m) w = (.ok (), w') ∧ A.Tabled w w' fun k =>
      if base + i ≤ k ∧ k < base + i + m then six (k - base) else A.table w.view k := by
  induction m generalizing i w with
  | zero =>
      refine ⟨w, rfl, rfl, fun k _ => ?_, fun _ _ => rfl⟩
      rw [if_neg (by omega)]
  | succ m ih =>
      have first : base + i < A.tableLen := by omega
      have put := tabled_put on first (six i)
      obtain ⟨w', run, rest⟩ := ih (i + 1) (on.kin put.kin) (by omega)
      refine ⟨w', ?_, rest.fs.trans put.fs, fun k hk => ?_, fun b other => ?_⟩
      · rw [List.range'_succ, rtBytesSet, bind_ok _ _ (rtByte_run on of (by omega))]
        dsimp only
        rw [bind_ok _ _ (txnWrite_run w _ _)]
        exact run
      · rw [rest.data k hk]
        by_cases later : base + (i + 1) ≤ k ∧ k < base + (i + 1) + m
        · rw [if_pos later, if_pos (by omega)]
        · rw [if_neg later, put.data k hk]
          by_cases here : k = base + i
          · rw [if_pos here, if_pos (by omega), here, Nat.add_sub_cancel_left]
          · rw [if_neg here, if_neg (by omega)]
      · rw [rest.frame b other, put.frame b other]

theorem rtRefSet_run (on : A.On w) (of : A.Of hdr) {c : Nat} (hc : c < A.cells) (r : Ref) :
    ∃ w', rtRefSet hdr c r w = (.ok (), w') ∧
      A.Tabled w w' (copyAt (A.table w.view) (rtRefOff A.cells c) 6 (sixBytes r)) := by
  have inside := A.ref_lt hc
  obtain ⟨w', run, put⟩ := rtBytesSet_run of (sixBytes r) 6 0 on inside
  refine ⟨w', ?_, put⟩
  rw [rtRefSet, bind_ok _ _ (get_run (s := w)), cells_eq A of, List.range_eq_range']
  exact run

variable [Crc32c]

theorem tblRead_run {l : Nat} (mapped : w.Mapped (A.blk l))
    (sound : TblOk w.blocksize (w.view (A.blk l))) :
    tblRead A.num l w = (.ok (w.view (A.blk l)), w) := by
  have read : txnRead (blkAddr A.num l) w = (.ok (w.view (A.blk l)), w) := txnRead_run mapped
  rw [tblRead, bind_ok _ _ read, bind_ok _ _ (get_run (s := w))]
  rw [ite_run, if_neg (not_not_intro sound.1), ite_run, if_neg (not_not_intro sound.2)]
  rfl

theorem tblRead_wp {l : Nat} {Q : Bytes → Work → Prop} {E : Err → Work → Prop}
    (mapped : w.Mapped (A.blk l))
    (ok : TblOk w.blocksize (w.view (A.blk l)) → Q (w.view (A.blk l)) w)
    (bad : ∀ m, E (.bail m) w) : wp (tblRead A.num l) Q E w := by
  have read : txnRead (blkAddr A.num l) w = (.ok (w.view (A.blk l)), w) := txnRead_run mapped
  rw [tblRead, wp_bind, wp_run read, wp_bind, wp_get]
  dsimp only
  rw [wp_ite, wp_ite]
  split
  · exact bad _
  · rename_i magic
    split
    · exact bad _
    · rename_i sum
      exact ok ⟨not_not.mp magic, not_not.mp sum⟩

theorem tblWrite_run (w : Work) (ag l : Nat) (buf : Bytes) :
    tblWrite ag l buf w = (.ok (), w.put (blkAddr ag l) (tblSeal w.blocksize buf)) := by
  rw [tblWrite, bind_ok _ _ (get_run (s := w)), txnWrite_run]
  congr 1
  apply put_congr
  intro i hi
  exact (clip_of_lt _ hi).symm

omit [Crc32c] in
theorem recRange_run {idx : Nat} (inside : RecIn w.blocksize idx) :
    recRange idx w = (.ok (), w) := by
  rw [recRange, bind_ok _ _ (get_run (s := w)), ite_run, if_neg (Nat.not_lt.mpr inside)]
  rfl

theorem recRead_run {r : Ref} (mapped : w.Mapped (A.blk r.1))
    (sound : TblOk w.blocksize (w.view (A.blk r.1))) (inside : RecIn w.blocksize r.2) :
    recRead A.num r w = (.ok (recAt (w.view (A.blk r.1)) r.2), w) := by
  rw [recRead, bind_ok _ _ (tblRead_run mapped sound), bind_ok _ _ (recRange_run inside)]
  rfl

theorem recWrite_run {r : Ref} (data : Bytes) (mapped : w.Mapped (A.blk r.1))
    (sound : TblOk w.blocksize (w.view (A.blk r.1))) (inside : RecIn w.blocksize r.2) :
    recWrite A.num r data w = (.ok (), w.put (A.blk r.1)
      (tblSeal w.blocksize (copyAt (w.view (A.blk r.1)) (recOff r.2) REC_SIZE data))) := by
  rw [recWrite, bind_ok _ _ (tblRead_run mapped sound), bind_ok _ _ (recRange_run inside),
    tblWrite_run]
  rfl

theorem tblFreeRec_run {r : Ref} (mapped : w.Mapped (A.blk r.1))
    (sound : TblOk w.blocksize (w.view (A.blk r.1))) (inside : RecIn w.blocksize r.2)
    (bit : r.2 < 32) :
    tblFreeRec A.num r w = (.ok (), w.put (A.blk r.1) (tblSeal w.blocksize
      (copyAt (putU32 (w.view (A.blk r.1)) 16
        (getU32 (w.view (A.blk r.1)) 16 &&& (0xFFFFFFFF ^^^ 1 <<< r.2))) (recOff r.2) REC_SIZE
        zeros))) := by
  rw [tblFreeRec, bind_ok _ _ (tblRead_run mapped sound), ite_run, if_neg (Nat.not_le.mpr bit)]
  rw [bind_ok _ _ (recRange_run inside), tblWrite_run]
  rfl

end Work

end FiveFs
