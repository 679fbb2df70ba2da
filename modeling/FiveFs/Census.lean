import FiveFs.Contents
import FiveFs.Slots

/-! The invariants of a fresh image: in every AG tree, header and slots agree, and the head of AG 0
covers what mkfs put there. -/

namespace FiveFs

open Buffer Prog Refine

/-- The blocks of the volume, with nothing under construction. -/
def Gofs.view (g : Gofs) : Nat → Bytes := Work.view { fs := g }

def Gofs.inodeAt [Crc32c] (g : Gofs) (ino : Nat) : Except String Inode :=
  Inode.parse (drop (g.inodeBlockOff ino).2 (g.view (g.inodeBlockOff ino).1)) INODE_SIZE

/-- The entries of a directory that has no blocks of its own. -/
def Inode.entries (i : Inode) : List DirEntry :=
  if i.format = FMT_EMBED then dirParse i.payload else []

namespace Gofs

variable [Crc32c]

/-- AG `k` with entry `e` is `A`; header and tree count the same blocks, and exactly the FULL slots
hold an inode. -/
structure Surveyed (g : Gofs) (k : Nat) (e : AgEntry) (A : Ag) (hdr : AgHeader) (T : Nat → Tree) :
    Prop where
  num : A.num = k
  length : A.length = e.length
  blocksize : A.blocksize = g.sb.blocksize
  header : AgHeader.parse (g.view A.hdrBlk) = .ok hdr
  models : ∀ c < A.cells, Models (A.kidMark g.view) (A.rootMark g.view c) (T c)
  tally : A.Tally hdr T
  whole : hdr.freeBlocks + hdr.rsvdBlocks + hdr.fullBlocks = A.length
  full : ∀ l < A.length, ∀ s < g.sb.blocksize / g.sb.inodesize, ∀ st, spot T l s = some (st, 3) →
    (st = .full ↔ ∃ i, g.inodeAt (inoAddr k (l * (g.sb.blocksize / g.sb.inodesize) + s)) = .ok i)
  free : ∀ l < A.length, ∀ s < g.sb.blocksize / g.sb.inodesize, spot T l s = some (.free, 3) →
    ∀ i < g.sb.inodesize, g.view (A.blk l) (s * g.sb.inodesize + i) = 0

/-- The bytes of the head of AG 0 with their lengths: superblock, header, root table, AG map copies,
journal, kernel. -/
def regions (sb : Superblock) (root rootBlocks : Nat) : List (Nat × Nat) := [
  (0, sb.blocksize),
  (sb.blocksize, sb.blocksize),
  (root * sb.blocksize, rootBlocks * sb.blocksize),
  (sb.agmapOffset, sb.agmapLength),
  (sb.agmapOffset + sb.agmapLength, sb.agmapLength),
  (sb.journalStart % 2 ^ 32 * sb.blocksize, sb.journalLength * sb.blocksize),
  (sb.kernelOffset, sb.kernelEnd - sb.kernelOffset)]

/-- The inode number names a FULL slot. -/
def FullSlot (g : Gofs) (ino : Nat) : Prop :=
  ∃ e A hdr T, g.map.entries[(blkSplit ino).1]? = some e ∧ g.Surveyed (blkSplit ino).1 e A hdr T ∧
    spot T ((blkSplit ino).2 / (g.sb.blocksize / g.sb.inodesize))
      ((blkSplit ino).2 % (g.sb.blocksize / g.sb.inodesize)) = some (.full, 3)

/-- What mkfs has to establish on a device of `blocks` blocks. -/
structure Established (g : Gofs) (blocks : Nat) : Prop where
  ags : ∀ k e, g.map.entries[k]? = some e → ∃ A hdr T, g.Surveyed k e A hdr T
  head : ∃ e A hdr T, g.map.entries[0]? = some e ∧ g.Surveyed 0 e A hdr T ∧
    (∀ r ∈ regions g.sb A.root A.tableBlocks, ∀ x, r.1 ≤ x → x < r.1 + r.2 →
      x / g.sb.blocksize < A.length ∧ T (x / g.sb.blocksize / CELL_BLOCKS) = .leaf .rsvd) ∧
    (regions g.sb A.root A.tableBlocks).Pairwise (fun r s => r.1 + r.2 ≤ s.1 ∨ s.1 + s.2 ≤ r.1) ∧
    T ((A.length - 1) / CELL_BLOCKS) = .leaf .rsvd
  root : ∃ i, g.inodeAt g.sb.rootIno = .ok i ∧ ∀ e ∈ i.entries, g.FullSlot e.ino
  sum : (g.map.entries.map AgEntry.length).sum = blocks

end Gofs

/-- The journal and the kernel fit in 32-bit block counts; a kernel is not empty, and has a second
slot for its inode. -/
structure MkfsOpts.Proper (opts : MkfsOpts) : Prop where
  journal : ∀ j, opts.journal = some j → divCeil j opts.blocksize < 2 ^ 32
  kernel : ∀ k, opts.kernel = some k →
    0 < k.1 ∧ divCeil k.1 opts.blocksize < 2 ^ 32 ∧ 2 ≤ opts.blocksize / opts.inodesize

namespace Mkfs

/-- AG `ag` of `len` blocks, where the fixed metadata and the cells `0..head` have room. -/
structure Site (bs ag len head : Nat) : Prop where
  power : ∃ k, bs = 2 ^ k
  large : 2048 ≤ bs
  num : ag < 2 ^ 32
  length : len < 2 ^ 32
  fits : allocRoot ag + (rtGeometry len bs).2 ≤ len
  head : allocRoot ag + (rtGeometry len bs).2 ≤ head * CELL_BLOCKS

theorem Site.reserves_head {bs ag len head : Nat} (site : Site bs ag len head) :
    ∀ l < allocRoot ag + (rtGeometry len bs).2, Reserved ag len head (l / CELL_BLOCKS) := by
  intro l low
  have room := site.head
  left
  rw [CELL_BLOCKS] at *
  omega

theorem Site.reserves_tail {bs ag len head : Nat} (_ : Site bs ag len head) :
    ∀ c, c * CELL_BLOCKS < len → len < (c + 1) * CELL_BLOCKS → Reserved ag len head c := by
  intro c low high
  right
  rw [cellCount, CELL_BLOCKS] at *
  omega

theorem hdrBlock_lt (ag : Nat) : hdrBlock ag < allocRoot ag := Nat.lt_succ_self _

/-- The AG at a site. -/
def Site.ag {bs ag len head : Nat} (site : Site bs ag len head) : Ag where
  num := ag
  length := len
  root := allocRoot ag
  blocksize := bs
  reserved := Reserved ag len head
  num_lt := site.num
  length_lt := site.length
  power := site.power
  large := site.large
  root_le := site.fits
  hdr_lt := hdrBlock_lt ag
  head := site.reserves_head
  tail := site.reserves_tail

section View

variable {d : Device} {sb : Superblock} {map : AgMap} {k len off l : Nat}

theorem resolve_laid (entry : map.entries[k]? = some (entryOf k len off)) (inside : l < len)
    (small : len < 2 ^ 32)
    (bs : Nat) : map.resolve (blkAddr k l) bs = some (off + l * bs) := by
  have present : ¬ ((entryOf k len off).flags &&& AGF_PRESENT = 0 ∨
      l ≥ (entryOf k len off).length) := by
    rw [not_or]
    refine ⟨?_, Nat.not_le_of_lt inside⟩
    rw [entryOf]
    dsimp only
    split <;> decide
  rw [AgMap.resolve, blkSplit_blkAddr k (Nat.lt_trans inside small)]
  simp only [entry]
  rw [if_neg present]
  simp [entryOf, inside]

theorem view_laid (entry : map.entries[k]? = some (entryOf k len off)) (inside : l < len)
    (small : len < 2 ^ 32) :
    Gofs.view { dev := d.reopen, sb, map } (blkAddr k l) =
      clip sb.blocksize (drop (off + l * sb.blocksize) d.bytes) := by
  have size : Work.blocksize { fs := { dev := d.reopen, sb, map } } = sb.blocksize := rfl
  have empty : ({} : Txn).find (blkAddr k l) = none := rfl
  rw [Gofs.view, Work.view]
  dsimp only
  rw [empty, size]
  dsimp only
  rw [resolve_laid entry inside small]
  rfl

theorem view_holds {b : Bytes} (entry : map.entries[k]? = some (entryOf k len off))
    (inside : l < len)
    (small : len < 2 ^ 32) (held : Device.Holds d (off + l * sb.blocksize) sb.blocksize b) :
    Gofs.view { dev := d.reopen, sb, map } (blkAddr k l) = clip sb.blocksize b := by
  rw [view_laid entry inside small]
  exact clip_congr held.same

end View

variable [Crc32c] {d : Device} {sb : Superblock} {map : AgMap} {ag len off head : Nat}

omit [Crc32c] in
theorem Site.cells (site : Site sb.blocksize ag len head) : site.ag.cells = cellCount len := rfl

theorem table_stored (site : Site sb.blocksize ag len head) {hdr : AgHeader} {table : Bytes}
    (entry : map.entries[ag]? = some (entryOf ag len off))
    (stored : AgStored sb.blocksize d ag off hdr table (rtGeometry len sb.blocksize).2) {i : Nat}
    (inside : i < site.ag.tableLen) : site.ag.table (Gofs.view { dev := d.reopen, sb, map })
    i = table i := by
  have block : i / sb.blocksize < (rtGeometry len sb.blocksize).2 := site.ag.block_lt inside
  have small : i % sb.blocksize < sb.blocksize := Nat.mod_lt i site.ag.blocksize_pos
  have held := stored.table (i / sb.blocksize) block
  have fits := site.fits
  show Gofs.view { dev := d.reopen, sb, map } (blkAddr ag (allocRoot ag + i / sb.blocksize))
      (i % sb.blocksize) = _
  rw [view_holds entry (by omega) site.length held, clip_of_lt _ small, clip_of_lt _ small, drop,
      Nat.div_add_mod']

theorem state_stored (site : Site sb.blocksize ag len head) {hdr : AgHeader} {table : Bytes}
    (entry : map.entries[ag]? = some (entryOf ag len off))
    (stored : AgStored sb.blocksize d ag off hdr table (rtGeometry len sb.blocksize).2) {c : Nat}
    (inside : c < site.ag.cells) :
    cellGet (site.ag.table (Gofs.view { dev := d.reopen, sb, map })) c = cellGet table c :=
  get2_congr (table_stored site entry stored (site.ag.state_lt inside))

theorem header_stored (site : Site sb.blocksize ag len head) {hdr : AgHeader} {table : Bytes}
    (entry : map.entries[ag]? = some (entryOf ag len off)) (fits : hdr.Fits)
    (stored : AgStored sb.blocksize d ag off hdr table (rtGeometry len sb.blocksize).2) :
    AgHeader.parse (Gofs.view { dev := d.reopen, sb, map } site.ag.hdrBlk) = .ok hdr := by
  have inside : hdrBlock ag < len := by
    have room := site.fits
    have root : hdrBlock ag < allocRoot ag := Nat.lt_succ_self _
    omega
  have large := site.large
  have place : site.ag.hdrBlk = blkAddr ag (hdrBlock ag) := rfl
  rw [place, view_holds entry inside site.length stored.header, ← AgHeader.parse_clip,
      clip_clip_of_le (by
    rw [AGHDR_SIZE]
    omega), clip_clip, AgHeader.parse_clip]
  exact AgHeader.parse_toBytes fits

omit [Crc32c] in
theorem nextHeader_fits (site : Site sb.blocksize ag len head)
    (free : openCells ag len head * CELL_BLOCKS ≤ len)
    (cell : head * CELL_BLOCKS < 2 ^ 32) : (nextHeader ag len head).Fits := by
  have length := site.length
  have root := site.fits
  exact ⟨site.num, (by decide : 1 < 2 ^ 64), length, Nat.lt_of_le_of_lt free length,
    Nat.lt_of_le_of_lt (Nat.sub_le _ _) length, Nat.two_pow_pos 32, by show allocRoot ag < _; omega,
    Nat.two_pow_pos 32, cell, Nat.two_pow_pos 32⟩

omit [Crc32c] in
theorem bare_tally (site : Site sb.blocksize ag len head) :
    site.ag.Tally (nextHeader ag len head) (bare ag len head) := by
  have blocks := total_blocks (T := bare ag len head) (fun c _ => shape_bare ag len head c)
      fun c inside open' =>
    whole_bare inside open'
  rw [bare_free, bare_full] at blocks
  refine ⟨⟨rfl, rfl, rfl⟩, (bare_free ag len head).symm, (bare_full ag len head).symm, ?_,
      fun some => (some rfl).elim⟩
  show len - openCells ag len head * CELL_BLOCKS = total (cellCount len) (rsvdWeight len)
      (bare ag len head)
  omega

theorem surveyed_bare (site : Site sb.blocksize ag len head)
    (entry : map.entries[ag]? = some (entryOf ag len off))
    (free : openCells ag len head * CELL_BLOCKS ≤ len)
    (cell : head * CELL_BLOCKS < 2 ^ 32)
    (stored : AgStored sb.blocksize d ag off (nextHeader ag len head) (newTable ag len head)
      (rtGeometry len sb.blocksize).2) :
    Gofs.Surveyed { dev := d.reopen, sb, map } ag (entryOf ag len off) site.ag
        (nextHeader ag len head)
      (bare ag len head) := by
  have some_cell : 0 < cellCount len := site.ag.cells_pos
  refine ⟨rfl, rfl, rfl, header_stored site entry (nextHeader_fits site free cell) stored, ?_,
      bare_tally site, ?_,
    ?_, ?_⟩
  · intro c inside
    apply models_bare
    rw [state_stored site entry stored inside, newTable]
    exact cellGet_reservedTable some_cell c
  · show openCells ag len head * CELL_BLOCKS + (len - openCells ag len head * CELL_BLOCKS) + 0 = len
    omega
  · intro l _ s _ st slot
    obtain ⟨st', leaf⟩ := spot_bare ag len head l s
    rw [leaf] at slot
    cases slot
  · intro l _ s _ slot
    obtain ⟨st', leaf⟩ := spot_bare ag len head l s
    rw [leaf] at slot
    cases slot

-- AG 0

section First

variable {p : MkfsPlan} {rest : List Nat}

omit [Crc32c] in
theorem first_tally (site : Site sb.blocksize 0 len head) (kernel : Bool)
    (room : head + 2 < cellCount len)
    (blocks : (openCells 0 len head - 2) * CELL_BLOCKS + (CELL_BLOCKS - 1) + 1 ≤ len) :
    site.ag.Tally (firstHeader len head) (planted len head kernel) := by
  have whole := total_blocks (T := planted len head kernel)
      (fun c _ => shape_planted len head kernel c)
    fun c inside open' => whole_planted room inside open'
  rw [planted_free room, planted_full room] at whole
  refine ⟨⟨rfl, rfl, rfl⟩, (planted_free room).symm, (planted_full room).symm, ?_, fun _ => ?_⟩
  · show len - ((openCells 0 len head - 2) * CELL_BLOCKS + (CELL_BLOCKS - 1) + 1) =
      total (cellCount len) (rsvdWeight len) (planted len head kernel)
    omega
  · have cell : head * CELL_BLOCKS / CELL_BLOCKS = head := Nat.mul_div_cancel _ (by decide)
    show head * CELL_BLOCKS % CELL_BLOCKS = 0 ∧ head * CELL_BLOCKS / CELL_BLOCKS < cellCount len ∧
      planted len head kernel (head * CELL_BLOCKS / CELL_BLOCKS) = .leaf .rsvd ∧
      ¬ Reserved 0 len head (head * CELL_BLOCKS / CELL_BLOCKS)
    rw [cell]
    exact ⟨Nat.mul_mod_left _ _, by omega, planted_arena, open_arena room⟩

omit [Crc32c] in
theorem firstHeader_fits (site : Site sb.blocksize 0 len head) (room : head + 2 < cellCount len)
    (blocks : (openCells 0 len head - 2) * CELL_BLOCKS + (CELL_BLOCKS - 1) + 1 ≤ len) :
    (firstHeader len head).Fits := by
  have length := site.length
  have cell : (head + 1) * CELL_BLOCKS < len := by
    rw [cellCount, CELL_BLOCKS] at room
    rw [CELL_BLOCKS]
    omega
  rw [Nat.add_mul] at cell
  refine ⟨Nat.two_pow_pos 32, (by decide : 1 < 2 ^ 64), length, ?_,
      Nat.lt_of_le_of_lt (Nat.sub_le _ _) length,
    (by decide : 1 < 2 ^ 32), (by decide : allocRoot 0 < 2 ^ 32), ?_, ?_, ?_⟩
  · show (openCells 0 len head - 2) * CELL_BLOCKS + (CELL_BLOCKS - 1) < _
    omega
  · show (head + 1) * CELL_BLOCKS < _
    rw [Nat.add_mul]
    omega
  · show head * CELL_BLOCKS < _
    omega
  · show head * CELL_BLOCKS < _
    omega

theorem sown_of_planted (site : Site sb.blocksize 0 len (topCell p len))
    (size : sb.blocksize = p.bs)
    (entry : map.entries[0]? = some (entryOf 0 len 0)) (room : topCell p len + 2 < cellCount len)
    (planted : Planted p len d) :
    Sown site.ag (Gofs.view { dev := d.reopen, sb, map }) (topCell p len) (p.kernelBlocks > 0) := by
  have stored := planted.stored
  have arena := planted.arena
  rw [← size] at stored arena
  have some_cell : 0 < cellCount len := site.ag.cells_pos
  have cell : (topCell p len + 1) * CELL_BLOCKS < len := by
    rw [cellCount, CELL_BLOCKS] at room
    rw [CELL_BLOCKS]
    omega
  rw [Nat.add_mul] at cell
  have length := site.length
  refine ⟨fun c inside => ?_, ?_, ?_, room⟩
  · have within : c < cellCount len := inside
    rw [state_stored site entry stored inside, firstTable, cellGet_inodeCells _ within, newTable,
      cellGet_reservedTable some_cell]
    rfl
  · have inside : topCell p len + 1 < site.ag.cells := by
      rw [site.cells]
      omega
    have six := site.ag.ref_lt inside
    have same : ∀ i < 6, site.ag.table (Gofs.view { dev := d.reopen, sb, map })
        (rtRefOff site.ag.cells (topCell p len + 1) + i) = firstTable len (topCell p len)
        (rtRefOff site.ag.cells (topCell p len + 1) + i) :=
      fun i hi => table_stored site entry stored (by omega)
    have small : topCell p len * CELL_BLOCKS < 2 ^ 32 := by omega
    obtain ⟨block, index⟩ := ref_inodeCells (newTable 0 len (topCell p len)) (cellCount len) small
    have first : getU32 (site.ag.table (Gofs.view { dev := d.reopen, sb, map }))
        (rtRefOff site.ag.cells (topCell p len + 1)) = topCell p len * CELL_BLOCKS :=
      (getBE_congr fun i hi => same i (by omega)).trans block
    have second : getU16 (site.ag.table (Gofs.view { dev := d.reopen, sb, map }))
        (rtRefOff site.ag.cells (topCell p len + 1) + 4) = 0 := by
      refine (getBE_congr fun i hi => ?_).trans index
      rw [Nat.add_assoc, Nat.add_assoc]
      exact same (4 + i) (by omega)
    rw [Ag.rootRef, first, second]
  · have place : Device.Holds d (0 + topCell p len * CELL_BLOCKS * sb.blocksize) sb.blocksize
        (arenaTable sb.blocksize (topCell p len * CELL_BLOCKS) (p.kernelBlocks > 0)) := by
      rw [Nat.zero_add]
      exact arena
    exact view_holds entry (by omega) length place

theorem inodeAt_slot (g : Gofs) {k l s : Nat} (inside : s < g.sb.blocksize / g.sb.inodesize)
    (small : l * (g.sb.blocksize / g.sb.inodesize) + s < 2 ^ 32) :
    g.inodeAt (inoAddr k (l * (g.sb.blocksize / g.sb.inodesize) + s)) =
      Inode.parse (drop (s * g.sb.inodesize) (g.view (blkAddr k l))) INODE_SIZE := by
  have block : (l * (g.sb.blocksize / g.sb.inodesize) + s) /
      (g.sb.blocksize / g.sb.inodesize) = l := by
    rw [Nat.mul_comm, Nat.mul_add_div (by omega), Nat.div_eq_of_lt inside, Nat.add_zero]
  have slot : (l * (g.sb.blocksize / g.sb.inodesize) + s) %
      (g.sb.blocksize / g.sb.inodesize) = s := by
    rw [Nat.mul_comm, Nat.mul_add_mod, Nat.mod_eq_of_lt inside]
  rw [Gofs.inodeAt, Gofs.inodeBlockOff, inoAddr, blkSplit_blkAddr k small]
  dsimp only
  rw [block, slot]

omit [Crc32c] in
theorem slot_holds {b : Bytes} {x n : Nat} (entry : map.entries[0]? = some (entryOf 0 len 0))
    (small : len < 2 ^ 32)
    {l : Nat} (inside : l < len) (within : x + n ≤ sb.blocksize)
    (held : Device.Holds d (l * sb.blocksize + x) n b)
    {i : Nat} (hi : i < n) : Gofs.view { dev := d.reopen, sb, map } (blkAddr 0 l) (x + i) = b
    i := by
  rw [view_laid entry inside small, clip_of_lt _ (by omega), drop, Nat.zero_add, ← Nat.add_assoc]
  exact held.same i hi

theorem parse_zeros : Inode.parse zeros INODE_SIZE = .error "inode: bad magic" := by
  rw [Inode.parse, if_neg (Nat.lt_irrefl _), if_pos]
  rw [getU16, getBE_zeros]
  decide

theorem slot_inode (entry : map.entries[0]? = some (entryOf 0 len 0)) (small : len < 2 ^ 32)
    (size : sb.blocksize = p.bs) (inodes : INODE_SIZE ≤ p.opts.inodesize)
    (inside : inoBlock p len < len)
    (planted : Planted p len d) {s : Nat} (within : (s + 1) * p.opts.inodesize ≤ p.bs) :
    (∃ j, Inode.parse (drop (s * p.opts.inodesize) (Gofs.view { dev := d.reopen, sb, map }
      (blkAddr 0 (inoBlock p len)))) INODE_SIZE = .ok j) ↔ s = 0 ∨ s = 1 ∧
      p.opts.kernel.isSome := by
  have whole : (s + 1) * p.opts.inodesize = s * p.opts.inodesize + p.opts.inodesize :=
      Nat.succ_mul _ _
  have read : ∀ b : Bytes, Device.Holds d (inoBlock p len * sb.blocksize + s * p.opts.inodesize)
      INODE_SIZE b →
      Inode.parse (drop (s * p.opts.inodesize) (Gofs.view { dev := d.reopen, sb, map }
        (blkAddr 0 (inoBlock p len)))) INODE_SIZE = Inode.parse b INODE_SIZE := by
    intro b held
    apply Inode.parse_congr
    intro i hi
    exact slot_holds entry small inside (by omega) held hi
  have stored : ∀ i : Inode, ∃ j, Inode.parse (clip INODE_SIZE i.toBytes) INODE_SIZE = .ok j := by
    intro i
    obtain ⟨j, parsed, -⟩ := i.parse_toBytes
    refine ⟨j, ?_⟩
    rw [← parsed]
    exact Inode.parse_congr fun k hk => clip_of_lt _ hk
  by_cases first : s = 0
  · refine ⟨fun _ => .inl first, fun _ => ?_⟩
    rw [read (clip INODE_SIZE (storedRoot p (rootIno p len)).toBytes)]
    · exact stored _
    · rw [first, Nat.zero_mul, Nat.add_zero, size]
      exact (planted.slotted inodes).root
  · by_cases second : s = 1 ∧ p.opts.kernel.isSome
    · refine ⟨fun _ => .inr second, fun _ => ?_⟩
      rw [read (clip INODE_SIZE (storedKernel p (headOf p len).2.1).toBytes)]
      · exact stored _
      · rw [second.1, Nat.one_mul, size]
        exact (planted.slotted inodes).kernel second.2
    · refine ⟨?_, fun either => (either.elim first second).elim⟩
      have blank := (planted.slotted inodes).blank s (by omega)
          (fun image equal => second ⟨equal, image⟩) within
      rw [read zeros, parse_zeros]
      · rintro ⟨j, none⟩
        cases none
      · rw [size]
        have head := blank.part (k := 0) (m := INODE_SIZE) (by omega)
        exact head

omit [Crc32c] in
theorem agLengths_le {maxAg fuel remaining l : Nat} (member : l ∈ agLengths maxAg fuel remaining) :
    l ≤ maxAg + 1023 := by
  induction fuel generalizing remaining with
  | zero => cases member
  | succ fuel ih =>
      rw [agLengths] at member
      split at member
      · cases member
      · dsimp only at member
        split at member
        · rw [List.mem_singleton.mp member]
          have cut := Nat.mod_le remaining (2 ^ 32)
          omega
        · rcases List.mem_cons.mp member with rfl | later
          · have cut := Nat.mod_le (min remaining maxAg) (2 ^ 32)
            omega
          · exact ih later

omit [Crc32c] in
theorem numbered (p : MkfsPlan) (large : 2048 ≤ p.bs) (fan : p.slots ≤ ALLOC_FANOUT) {len : Nat}
    (member : len ∈ p.lengths) : len * p.slots < 2 ^ 32 := by
  have most : p.maxAgBlocks ≤ MAX_AG_BYTES / 2048 := Nat.div_le_div_left large (by decide)
  have bytes : MAX_AG_BYTES / 2048 = 33554432 := by decide
  have length := agLengths_le member
  have product : len * p.slots ≤ 33555455 * 16 := Nat.mul_le_mul (by omega) fan
  omega

theorem Formatted.entry (f : Formatted p len rest d sb map) :
    map.entries[0]? = some (entryOf 0 len 0) := by
  rw [f.entries]
  rfl

theorem Formatted.slots (f : Formatted p len rest d sb map) :
    sb.blocksize / sb.inodesize = p.slots := by
  rw [f.regions.blocksize, f.regions.inodesize]
  rfl

theorem Formatted.ino_lt (f : Formatted p len rest d sb map) : inoBlock p len + 1 < len := by
  have cells := f.cells
  rw [cellCount, CELL_BLOCKS] at cells
  rw [inoBlock, CELL_BLOCKS]
  omega

theorem surveyed_first (f : Formatted p len rest d sb map)
    (site : Site sb.blocksize 0 len (topCell p len))
    (planted : Planted p len d) (inodes : INODE_SIZE ≤ p.opts.inodesize)
    (fan : p.slots ≤ ALLOC_FANOUT)
    (kernel : p.opts.kernel.isSome ↔ 0 < p.kernelBlocks) :
    Gofs.Surveyed { dev := d.reopen, sb, map } 0 (entryOf 0 len 0) site.ag
    (firstHeader len (topCell p len))
      (Mkfs.planted len (topCell p len) (p.kernelBlocks > 0)) := by
  have size := f.regions.blocksize
  have large : 2048 ≤ p.bs := size ▸ site.large
  have inoSize := f.regions.inodesize
  have entry := f.entry
  have inside := f.ino_lt
  have sown := sown_of_planted site size entry f.cells planted
  have stored := planted.stored
  rw [← size] at stored
  have member : len ∈ p.lengths := by
    rw [f.lengths]
    exact List.mem_cons_self
  have bound := numbered p large fan member
  have flag : decide (p.kernelBlocks > 0) = p.opts.kernel.isSome := by
    rw [Bool.eq_iff_iff, decide_eq_true_iff, kernel]
  -- only the inode block has slots
  have slots : ∀ l s st, s < p.slots → spot (Mkfs.planted len (topCell p len) (p.kernelBlocks > 0))
      l s = some (st, 3) →
      l = inoBlock p len ∧ st = if s = 0 ∨ s = 1 ∧ p.opts.kernel.isSome then .full else .free := by
    intro l s st hs slot
    have here : l = inoBlock p len := by
      by_contra other
      obtain ⟨st', depth, low, leaf⟩ := spot_planted len (p.kernelBlocks > 0) other s
      rw [leaf] at slot
      injection slot with slot
      injection slot with _ three
      omega
    subst here
    rw [inoBlock, spot_slots (by omega)] at slot
    injection slot with slot
    injection slot with state _
    refine ⟨rfl, ?_⟩
    rw [← state, flag]
  have room : ∀ s < p.slots, (s + 1) * p.opts.inodesize ≤ p.bs := fun s hs =>
    Nat.le_trans (Nat.mul_le_mul_right _ hs) (Nat.div_mul_le_self _ _)
  have numbers : ∀ s < p.slots, inoBlock p len * p.slots + s < 2 ^ 32 := by
    intro s hs
    have row : (inoBlock p len + 1) * p.slots ≤ len * p.slots := Nat.mul_le_mul_right _ (by omega)
    rw [Nat.add_mul] at row
    omega
  have fslots : ({ dev := d.reopen, sb, map } : Gofs).sb.blocksize /
      ({ dev := d.reopen, sb, map } : Gofs).sb.inodesize =
      p.slots := f.slots
  refine ⟨rfl, rfl, rfl, header_stored site entry (firstHeader_fits site f.cells f.blocks) stored,
    fun c hc => sown.models hc, first_tally site _ f.cells f.blocks, ?_, ?_, ?_⟩
  · show (openCells 0 len (topCell p len) - 2) * CELL_BLOCKS + (CELL_BLOCKS - 1) +
      (len - ((openCells 0 len (topCell p len) - 2) * CELL_BLOCKS + (CELL_BLOCKS - 1) + 1)) + 1 =
      len
    have blocks := f.blocks
    omega
  · rw [fslots]
    intro l _ s hs st slot
    obtain ⟨rfl, state⟩ := slots l s st hs slot
    have found := inodeAt_slot { dev := d.reopen, sb, map } (k := 0) (l := inoBlock p len) (s := s)
      (fslots.symm ▸ hs) (fslots.symm ▸ numbers s hs)
    have content := slot_inode entry site.length size inodes (by omega) planted (room s hs)
    rw [fslots] at found
    rw [found]
    show _ ↔ ∃ i, Inode.parse (drop (s * sb.inodesize) _) INODE_SIZE = .ok i
    rw [inoSize, content, state]
    split
    · rename_i full
      exact ⟨fun _ => full, fun _ => rfl⟩
    · rename_i open'
      exact ⟨(fun h => by cases h), fun full => (open' full).elim⟩
  · rw [fslots]
    intro l _ s hs slot
    obtain ⟨rfl, state⟩ := slots l s .free hs slot
    have open' : ¬ (s = 0 ∨ s = 1 ∧ p.opts.kernel.isSome) := fun full => by
      cases state.trans (if_pos full)
    have blank := (planted.slotted inodes).blank s (by omega)
        (fun image equal => open' (.inr ⟨equal, image⟩)) (room s hs)
    show ∀ i < sb.inodesize, Gofs.view _ (blkAddr 0 (inoBlock p len)) (s * sb.inodesize + i) = 0
    intro i hi
    rw [inoSize] at hi ⊢
    rw [← size] at blank
    have within : s * p.opts.inodesize + p.opts.inodesize ≤ sb.blocksize := by
      rw [size, ← Nat.succ_mul]
      exact room s hs
    exact slot_holds entry site.length (by omega) within blank hi

theorem AllStored.entry {bs ag off k : Nat} {lens : List Nat} {e : AgEntry}
    (all : AllStored bs d ag off lens)
    (entry : (laidOut bs ag off lens)[k]? = some e) :
    ∃ len off, e = entryOf (ag + k) len off ∧ len ∈ lens ∧ EmptyStored bs d (ag + k) off len := by
  induction lens generalizing ag off k with
  | nil => cases entry
  | cons len rest ih =>
      cases k with
      | zero =>
          cases entry
          exact ⟨len, off, rfl, List.mem_cons_self, all.1⟩
      | succ k =>
          obtain ⟨len', off', same, among, stored⟩ := ih all.2 entry
          rw [Nat.add_assoc, Nat.add_comm 1] at same stored
          exact ⟨len', off', same, List.mem_cons_of_mem _ among, stored⟩

theorem first_site (f : Formatted p len rest d sb map) (power : ∃ k, sb.blocksize = 2 ^ k)
    (large : 2048 ≤ sb.blocksize) :
    Site sb.blocksize 0 len (topCell p len) := by
  have table := topBlock_ge p len
  have roomy := f.roomy
  have size := f.regions.blocksize
  rw [← size] at table
  exact ⟨power, large, by decide, f.small, by omega, Nat.le_trans table (top_le_cell p len)⟩

omit [Crc32c] in
theorem later_site {bs k l : Nat} (power : ∃ k, bs = 2 ^ k) (large : 2048 ≤ bs) (num : k < 2 ^ 32)
    (some_blocks : 16 ≤ l) (small : l < 2 ^ 32) : Site bs k l (headCells bs k l) := by
  have fits := rtBlocks_le large some_blocks
  have root : allocRoot k ≤ 2 := by
    rw [allocRoot, hdrBlock]
    split <;> decide
  refine ⟨power, large, num, small, by omega, ?_⟩
  rw [headCells, divCeil, CELL_BLOCKS]
  omega

theorem stored_later (f : Formatted p len rest d sb map) (power : ∃ k, sb.blocksize = 2 ^ k)
    (large : 2048 ≤ sb.blocksize) (small : sb.blocksize < 2 ^ 32)
    (count : map.entries.length < 2 ^ 32)
    (stored : AllStored p.bs d 1 (len * p.bs) rest) {k : Nat} {e : AgEntry}
    (entry : map.entries[k + 1]? = some e) :
    ∃ l off, e = entryOf (k + 1) l off ∧ Site sb.blocksize (k + 1) l
    (headCells sb.blocksize (k + 1) l) ∧
      EmptyStored sb.blocksize d (k + 1) off l ∧ headCells sb.blocksize (k + 1)
      l * CELL_BLOCKS < 2 ^ 32 := by
  have size := f.regions.blocksize
  have listed : (laidOut p.bs 1 (len * p.bs) rest)[k]? = some e := by
    rw [f.entries, laidOut, Nat.zero_add, Nat.zero_add] at entry
    exact entry
  obtain ⟨l, off, same, among, found⟩ := stored.entry listed
  rw [Nat.add_comm 1] at same found
  rw [size] at large small
  have blocks := rest_large p large small f.lengths l among
  have length := agLengths_le (f.lengths ▸ List.mem_cons_of_mem len among : l ∈ p.lengths)
  have most := (maxAg_bounds p large small).2
  have num : k + 1 < 2 ^ 32 := by
    obtain ⟨inside, -⟩ := List.getElem?_eq_some_iff.mp entry
    omega
  rw [← size] at found large
  have site := later_site power large num blocks (by omega)
  refine ⟨l, off, same, site, found, ?_⟩
  have root := site.fits
  rw [headCells, divCeil, CELL_BLOCKS]
  omega

theorem surveyed_later (f : Formatted p len rest d sb map) (power : ∃ k, sb.blocksize = 2 ^ k)
    (large : 2048 ≤ sb.blocksize) (small : sb.blocksize < 2 ^ 32)
    (count : map.entries.length < 2 ^ 32)
    (stored : AllStored p.bs d 1 (len * p.bs) rest) {k : Nat} {e : AgEntry}
    (entry : map.entries[k + 1]? = some e) :
    ∃ A hdr T, Gofs.Surveyed { dev := d.reopen, sb, map } (k + 1) e A hdr T := by
  obtain ⟨l, off, rfl, site, found, cell⟩ := stored_later f power large small count stored entry
  exact ⟨site.ag, _, _, surveyed_bare site entry found.2 cell found.1⟩

theorem region_end (f : Formatted p len rest d sb map) (narrow : Narrow p) {root rootBlocks : Nat}
    (place : root = allocRoot 0) (blocks : rootBlocks = (rtGeometry len p.bs).2)
    (large : 2048 ≤ p.bs) :
    ∀ r ∈ Gofs.regions sb root rootBlocks, r.1 + r.2 ≤ topBlock p len * p.bs := by
  have regions := f.regions
  have room := (agmap_room p large).2
  have top := regions.top
  have start := regions.journal
  have agmap := regions.agmap
  rw [Nat.mod_eq_of_lt narrow.journal, Nat.mod_eq_of_lt narrow.kernel] at top
  have roomy := f.roomy
  have small := f.small
  have mod : sb.journalStart % 2 ^ 32 = sb.journalStart := Nat.mod_eq_of_lt (by omega)
  have head : topBlock p len * p.bs = sb.journalStart * p.bs + p.journalBlocks * p.bs +
      p.kernelBlocks * p.bs := by
    rw [← top, Nat.add_mul, Nat.add_mul]
  rw [Nat.add_mul] at agmap
  have behind : sb.journalStart * p.bs = allocRoot 0 * p.bs + (rtGeometry len p.bs).2 * p.bs +
      2 * p.agmapBlocks * p.bs := by
    rw [start, Nat.add_mul, Nat.add_mul]
  have two : allocRoot 0 * p.bs = 2 * p.bs := rfl
  have image : p.kernelLen ≤ p.kernelBlocks * p.bs := by
    have ceil := Nat.div_add_mod (p.kernelLen + p.bs - 1) p.bs
    have rem := Nat.mod_lt (p.kernelLen + p.bs - 1) (show 0 < p.bs by omega)
    rw [MkfsPlan.kernelBlocks, divCeil]
    rw [Nat.mul_comm] at ceil
    omega
  have kernel : sb.kernelOffset + (sb.kernelEnd - sb.kernelOffset) ≤ topBlock p len * p.bs := by
    by_cases none : p.kernelBlocks = 0
    · obtain ⟨first, last⟩ := regions.none none
      omega
    · obtain ⟨place, first, last⟩ := regions.kernel (Nat.pos_of_ne_zero none)
      rw [Nat.mod_eq_of_lt narrow.journal] at place
      rw [place, Nat.add_mul] at first
      omega
  intro r member
  rw [Gofs.regions, regions.blocksize, regions.agmapLength, regions.journalLength, mod, place,
      blocks] at member
  simp only [List.mem_cons, List.not_mem_nil, or_false] at member
  rcases member with rfl | rfl | rfl | rfl | rfl | rfl | rfl <;> dsimp only <;> omega

theorem regions_apart (f : Formatted p len rest d sb map) (narrow : Narrow p)
    {root rootBlocks : Nat}
    (place : root = allocRoot 0) (blocks : rootBlocks = (rtGeometry len p.bs).2)
    (large : 2048 ≤ p.bs) :
    (Gofs.regions sb root rootBlocks).Pairwise fun r s => r.1 + r.2 ≤ s.1 ∨ s.1 + s.2 ≤ r.1 := by
  have regions := f.regions
  have room := (agmap_room p large).2
  have top := regions.top
  have start := regions.journal
  have agmap := regions.agmap
  rw [Nat.mod_eq_of_lt narrow.journal, Nat.mod_eq_of_lt narrow.kernel] at top
  have roomy := f.roomy
  have small := f.small
  have mod : sb.journalStart % 2 ^ 32 = sb.journalStart := Nat.mod_eq_of_lt (by omega)
  rw [Nat.add_mul] at agmap
  have behind : sb.journalStart * p.bs = allocRoot 0 * p.bs + (rtGeometry len p.bs).2 * p.bs +
      2 * p.agmapBlocks * p.bs := by
    rw [start, Nat.add_mul, Nat.add_mul]
  have two : allocRoot 0 * p.bs = 2 * p.bs := rfl
  have kernel : sb.kernelOffset = 0 ∧ sb.kernelEnd = 0 ∨
      sb.kernelOffset = sb.journalStart * p.bs + p.journalBlocks * p.bs := by
    by_cases none : p.kernelBlocks = 0
    · exact .inl (regions.none none)
    · obtain ⟨place, first, -⟩ := regions.kernel (Nat.pos_of_ne_zero none)
      rw [Nat.mod_eq_of_lt narrow.journal] at place
      rw [place, Nat.add_mul] at first
      exact .inr first
  rw [Gofs.regions, regions.blocksize, regions.agmapLength, regions.journalLength, mod, place,
      blocks]
  simp only [List.pairwise_cons, List.mem_cons, List.not_mem_nil, or_false, forall_eq_or_imp,
      forall_eq,
    List.Pairwise.nil, false_imp_iff, implies_true, and_true]
  omega

theorem root_inode (f : Formatted p len rest d sb map)
    (site : Site sb.blocksize 0 len (topCell p len))
    (planted : Planted p len d) (inodes : INODE_SIZE ≤ p.opts.inodesize)
    (fits : p.opts.inodesize ≤ p.bs)
    (fan : p.slots ≤ ALLOC_FANOUT) :
    ∃ i, Gofs.inodeAt { dev := d.reopen, sb, map } sb.rootIno = .ok i ∧
      i.entries = if p.opts.kernel.isSome then [kernelEntry sb.rootIno] else [] := by
  have size := f.regions.blocksize
  have large : 2048 ≤ p.bs := size ▸ site.large
  have member : len ∈ p.lengths := by
    rw [f.lengths]
    exact List.mem_cons_self
  have bound := numbered p large fan member
  have inside := f.ino_lt
  have row : inoBlock p len * p.slots ≤ len * p.slots := Nat.mul_le_mul_right _ (by omega)
  have some_slot : 0 < p.slots := Nat.div_pos fits (Nat.lt_of_lt_of_le (by decide) inodes)
  have slots : ({ dev := d.reopen, sb, map } : Gofs).sb.blocksize /
      ({ dev := d.reopen, sb, map } : Gofs).sb.inodesize =
      p.slots := f.slots
  have found := inodeAt_slot { dev := d.reopen, sb, map } (k := 0) (l := inoBlock p len) (s := 0)
    (slots.symm ▸ some_slot) (by
      rw [slots]
      omega)
  rw [slots, Nat.add_zero, Nat.zero_mul] at found
  have number : sb.rootIno = inoAddr 0 (inoBlock p len * p.slots) := f.ino
  obtain ⟨i, parsed, format, -, payload⟩ := (storedRoot p (rootIno p len)).parse_toBytes
  refine ⟨i, ?_, ?_⟩
  · rw [number, found, ← parsed]
    apply Inode.parse_congr
    intro k hk
    have held := (planted.slotted inodes).root
    rw [← size, ← Nat.add_zero (inoBlock p len * sb.blocksize)] at held
    have block : INODE_SIZE ≤ sb.blocksize := by
      rw [size]
      omega
    have byte := slot_holds f.entry site.length (by omega) (by omega) held hk
    rw [Nat.zero_add] at byte
    rw [drop, Nat.zero_add, byte, clip_of_lt _ hk]
  · have same : sb.rootIno = rootIno p len := f.ino
    rw [Inode.entries, format, payload, storedRoot]
    split
    · rename_i with_kernel
      have ino : rootIno p len + 1 < 2 ^ 64 := by
        rw [← same, number, inoAddr, blkAddr]
        omega
      have entries := dirParse_firstEntry (e := kernelEntry (rootIno p len))
          (by show 30 ≤ 128; decide)
        (Nat.succ_pos _) ino (by decide : DT_FILE < 256) (by decide : ∀ u ∈ kernelName, u < 2 ^ 16)
      rw [if_pos (by rfl), same]
      exact entries
    · exact if_neg (show ¬ FMT_EMPTY % 256 = FMT_EMBED by decide)

end First

omit [Crc32c] in
theorem proper_narrow {opts : MkfsOpts} {p : MkfsPlan} (asked : p.opts = opts) (large : 2048 ≤ p.bs)
    (proper : opts.Proper) : Narrow p ∧ (p.opts.kernel.isSome ↔ 0 < p.kernelBlocks) := by
  subst asked
  refine ⟨⟨?_, ?_⟩, ?_⟩
  · rw [MkfsPlan.journalBlocks]
    rcases journal : p.opts.journal with _ | j
    · rw [Option.getD_none]
      have most : min (128 <<< 20) (max (p.size / 16) (4 <<< 20)) ≤ 134217728 := Nat.min_le_left _ _
      rw [divCeil, Nat.div_lt_iff_lt_mul (by omega)]
      omega
    · exact proper.journal j journal
  · rw [MkfsPlan.kernelBlocks, MkfsPlan.kernelLen]
    rcases image : p.opts.kernel with _ | k
    · rw [divCeil]
      have none : (0 + p.bs - 1) / p.bs = 0 := Nat.div_eq_of_lt (by omega)
      show (0 + p.bs - 1) / p.bs < 2 ^ 32
      rw [none]
      decide
    · exact (proper.kernel k image).2.1
  · rw [MkfsPlan.kernelBlocks, MkfsPlan.kernelLen, divCeil]
    rcases image : p.opts.kernel with _ | k
    · have empty : (0 + p.bs - 1) / p.bs = 0 := Nat.div_eq_of_lt (by omega)
      refine ⟨(fun h => by cases h), fun some => ?_⟩
      have zero : 0 < (0 + p.bs - 1) / p.bs := some
      omega
    · have length := (proper.kernel k image).1
      refine ⟨fun _ => Nat.div_pos ?_ (by omega), fun _ => rfl⟩
      show p.bs ≤ k.1 + p.bs - 1
      omega

section Formatted

variable {opts : MkfsOpts} {uuid : Nat} {p : MkfsPlan} {rest : List Nat}

theorem Formatted.power (f : Formatted p len rest d sb map) {d₀ : Device}
    (plan : Accepted opts uuid d₀ p) :
    ∃ k, sb.blocksize = 2 ^ k := by
  obtain ⟨k, -, power⟩ := isPowerOfTwo_iff.mp plan.power
  exact ⟨k, f.regions.blocksize.trans power⟩

omit [Crc32c] in
theorem laidOut_lengths (bs ag off : Nat) (lens : List Nat) :
    (laidOut bs ag off lens).map AgEntry.length = lens := by
  induction lens generalizing ag off with
  | nil => rfl
  | cons len rest ih => rw [laidOut, List.map_cons, ih]; rfl

theorem Formatted.kernel_ino (f : Formatted p len rest d sb map) (large : 2048 ≤ p.bs)
    (fan : p.slots ≤ ALLOC_FANOUT) (some_slot : 0 < p.slots) :
    blkSplit (sb.rootIno + 1) = (0, inoBlock p len * p.slots + 1) := by
  have member : len ∈ p.lengths := by
    rw [f.lengths]
    exact List.mem_cons_self
  have bound := numbered p large fan member
  have row : (inoBlock p len + 1) * p.slots < len * p.slots :=
      Nat.mul_lt_mul_of_pos_right f.ino_lt some_slot
  rw [Nat.add_mul] at row
  have number : sb.rootIno + 1 = blkAddr 0 (inoBlock p len * p.slots + 1) := by
    rw [f.ino, rootIno, inoAddr, blkAddr, blkAddr, Nat.add_assoc]
  rw [number]
  exact blkSplit_blkAddr 0 (by omega)

/-- With proper options mkfs establishes the invariants. -/
theorem established (f : Formatted p len rest d sb map) {d₀ : Device}
    (plan : Accepted opts uuid d₀ p)
    (typed : opts.Typed d₀ uuid) (inodes : INODE_SIZE ≤ opts.inodesize)
    (count : map.entries.length < 2 ^ 32)
    (proper : opts.Proper) :
    Gofs.Established { dev := d.reopen, sb, map } (deviceSize opts d₀ / opts.blocksize) := by
  have asked := plan.asked
  have size := f.regions.blocksize
  have large : 2048 ≤ p.bs := plan.large
  have small : p.bs < 2 ^ 32 := by
    rw [MkfsPlan.bs, asked]
    exact typed.blocksize
  have inodes : INODE_SIZE ≤ p.opts.inodesize := asked.symm ▸ inodes
  have fits : p.opts.inodesize ≤ p.bs := plan.inodesize
  obtain ⟨narrow, kernel⟩ := proper_narrow asked large proper
  obtain ⟨planted, stored⟩ := f.contents narrow
  have site := first_site f (f.power plan) (size.symm ▸ large)
  have first := surveyed_first f site planted inodes plan.fan kernel
  have entry := f.entry
  refine ⟨fun k e found => ?_, ⟨_, site.ag, _, _, entry, first, fun r member x low high => ?_, ?_,
      ?_⟩, ?_, ?_⟩
  · rcases k with _ | k
    · cases entry.symm.trans found
      exact ⟨site.ag, _, _, first⟩
    · exact surveyed_later f (f.power plan) (size.symm ▸ large) (size.symm ▸ small) count stored
          found
  · have stop := region_end f narrow rfl (by rw [← size]; rfl) large r member
    have roomy := f.roomy
    have below : x / sb.blocksize < topBlock p len := by
      rw [size]
      exact (Nat.div_lt_iff_lt_mul (by omega)).mpr (by omega)
    refine ⟨?_, planted_head below⟩
    show x / sb.blocksize < len
    omega
  · exact regions_apart f narrow rfl (by rw [← size]; rfl) large
  · exact planted_last f.cells
  · obtain ⟨i, found, entries⟩ := root_inode f site planted inodes fits plan.fan
    refine ⟨i, found, fun e member => ?_⟩
    rw [entries] at member
    split at member
    · rename_i image
      rw [List.mem_singleton.mp member]
      have some_block := kernel.mp image
      obtain ⟨k, found⟩ := Option.isSome_iff_exists.mp image
      have second : 2 ≤ p.slots := by
        rw [MkfsPlan.slots, asked]
        exact (proper.kernel k (asked ▸ found)).2.2
      have slots : sb.blocksize / sb.inodesize = p.slots := f.slots
      have block : (inoBlock p len * p.slots + 1) / p.slots = inoBlock p len := by
        rw [Nat.mul_comm, Nat.mul_add_div (by omega), Nat.div_eq_of_lt (by omega), Nat.add_zero]
      have slot : (inoBlock p len * p.slots + 1) % p.slots = 1 := by
        rw [Nat.mul_comm, Nat.mul_add_mod, Nat.mod_eq_of_lt (by omega)]
      show Gofs.FullSlot _ (sb.rootIno + 1)
      rw [Gofs.FullSlot, f.kernel_ino large plan.fan (by omega)]
      dsimp only
      rw [slots, block, slot]
      refine ⟨_, site.ag, _, _, entry, first, ?_⟩
      rw [inoBlock, spot_slots (by decide), if_pos (.inr ⟨rfl, decide_eq_true some_block⟩)]
    · cases member
  · show (map.entries.map AgEntry.length).sum = _
    have most := maxAg_bounds p large small
    rw [f.entries, ← f.lengths, laidOut_lengths, ← plan.blocks]
    exact agLengths_total (by omega) (by omega) (Nat.le_refl _)

omit [Crc32c] in
theorem marks_unique {A B : Ag} (num : A.num = B.num) (length : A.length = B.length)
    (root : A.root = B.root)
    (blocksize : A.blocksize = B.blocksize) (v : Nat → Bytes) :
    A.kidMark v = B.kidMark v ∧ A.rootMark v = B.rootMark v := by
  cases A
  cases B
  cases num
  cases length
  cases root
  cases blocksize
  exact ⟨rfl, rfl⟩

theorem tree_unique {g : Gofs} {k : Nat} {e : AgEntry} {A B : Ag} {hdr hdr' : AgHeader}
    {T T' : Nat → Tree}
    (h : g.Surveyed k e A hdr T) (num : B.num = k) (length : B.length = e.length)
    (size : B.blocksize = g.sb.blocksize)
    (header : AgHeader.parse (g.view B.hdrBlk) = .ok hdr') (root : hdr'.allocRoot = B.root)
    (models : ∀ c < B.cells, Models (B.kidMark g.view) (B.rootMark g.view c) (T' c)) :
    ∀ c < B.cells, T c = T' c := by
  have numbers : A.num = B.num := h.num.trans num.symm
  have blocks : A.hdrBlk = B.hdrBlk := by rw [Ag.hdrBlk, Ag.blk, numbers, Ag.hdrBlk, Ag.blk]
  have lengths : A.length = B.length := h.length.trans length.symm
  have same : hdr = hdr' := by
    have parsed := h.header
    rw [blocks, header] at parsed
    exact (Except.ok.inj parsed).symm
  have roots : A.root = B.root := by rw [← h.tally.of.root, same, root]
  obtain ⟨kids, marks⟩ := marks_unique numbers lengths roots (h.blocksize.trans size.symm) g.view
  have cells : A.cells = B.cells := by rw [Ag.cells, lengths, Ag.cells]
  intro c inside
  have first := h.models c (cells ▸ inside)
  rw [kids, marks] at first
  exact first.unique (models c inside)

/-- Journal and kernel are short where the cells of AG 0 cover them. -/
theorem narrow_of_within (f : Formatted p len rest d sb map) {A : Ag} (large : 2048 ≤ p.bs)
    (within : ∀ r ∈ Gofs.regions sb A.root A.tableBlocks, ∀ x, r.1 ≤ x → x < r.1 + r.2 →
      x / p.bs < 2 ^ 32) : Narrow p := by
  have start := f.regions.journal
  have top := f.regions.top
  have small := f.small
  have roomy := f.roomy
  have two : allocRoot 0 = 2 := rfl
  have journal : p.journalBlocks < 2 ^ 32 := by
    by_contra huge
    have mod : sb.journalStart % 2 ^ 32 = sb.journalStart := Nat.mod_eq_of_lt (by omega)
    have member : (sb.journalStart * p.bs, p.journalBlocks * p.bs) ∈ Gofs.regions sb A.root
        A.tableBlocks := by
      rw [Gofs.regions, f.regions.blocksize, f.regions.journalLength, mod]
      simp
    have last : (sb.journalStart + (2 ^ 32 - 1)) * p.bs < (sb.journalStart + p.journalBlocks) *
        p.bs :=
      Nat.mul_lt_mul_of_pos_right (by omega) (by omega)
    have first : sb.journalStart * p.bs ≤ (sb.journalStart + (2 ^ 32 - 1)) * p.bs :=
      Nat.mul_le_mul_right _ (Nat.le_add_right _ _)
    rw [Nat.add_mul sb.journalStart p.journalBlocks] at last
    have inside := within _ member _ first last
    rw [Nat.mul_div_cancel _ (by omega)] at inside
    omega
  have kernel : p.kernelBlocks < 2 ^ 32 := by
    by_contra huge
    obtain ⟨place, first, last⟩ := f.regions.kernel (by omega)
    have member : (sb.kernelOffset, sb.kernelEnd - sb.kernelOffset) ∈ Gofs.regions sb A.root
        A.tableBlocks := by
      simp [Gofs.regions]
    have blocks : 2 ^ 32 * p.bs ≤ p.kernelLen + p.bs - 1 :=
      (Nat.le_div_iff_mul_le (by omega)).mp (Nat.le_of_not_lt huge)
    have inside := within _ member (sb.kernelOffset + (p.kernelLen - 1)) (by omega) (by omega)
    have row : 1 * p.bs ≤ (headOf p len).2.1 * p.bs := Nat.mul_le_mul_right _ (by omega)
    have beyond : 2 ^ 32 ≤ (sb.kernelOffset + (p.kernelLen - 1)) / p.bs :=
      (Nat.le_div_iff_mul_le (by omega)).mpr (by omega)
    omega
  exact ⟨journal, kernel⟩

/-- Where the invariants hold, the options were proper. -/
theorem proper_of_established (f : Formatted p len rest d sb map) {d₀ : Device}
    (plan : Accepted opts uuid d₀ p)
    (inodes : INODE_SIZE ≤ opts.inodesize)
    (sane : Gofs.Established { dev := d.reopen, sb, map } (deviceSize opts d₀ / opts.blocksize)) :
    opts.Proper := by
  have asked := plan.asked
  have size := f.regions.blocksize
  have large : 2048 ≤ p.bs := plan.large
  have inodes : INODE_SIZE ≤ p.opts.inodesize := asked.symm ▸ inodes
  have fits : p.opts.inodesize ≤ p.bs := plan.inodesize
  obtain ⟨e, A, hdr, T, entry, surveyed, covered, -, -⟩ := sane.head
  have within : ∀ r ∈ Gofs.regions sb A.root A.tableBlocks, ∀ x, r.1 ≤ x → x < r.1 + r.2 →
      x / p.bs < 2 ^ 32 := by
    intro r member x low high
    have inside := (covered r member x low high).1
    rw [← size]
    exact Nat.lt_trans inside A.length_lt
  have narrow := narrow_of_within f large within
  have journal := narrow.1
  have kernel := narrow.2
  obtain ⟨planted, -⟩ := f.contents narrow
  have site := first_site f (f.power plan) (size.symm ▸ large)
  have sown := sown_of_planted site size f.entry f.cells planted
  have stored := planted.stored
  rw [← size] at stored
  have header := header_stored site f.entry (firstHeader_fits site f.cells f.blocks) stored
  have some_slot : 0 < p.slots := Nat.div_pos fits (Nat.lt_of_lt_of_le (by decide) inodes)
  have slots : sb.blocksize / sb.inodesize = p.slots := f.slots
  -- what the kernel's entry leads to
  have full : p.opts.kernel.isSome → spot (Mkfs.planted len (topCell p len) (p.kernelBlocks > 0))
      ((inoBlock p len * p.slots + 1) / p.slots) ((inoBlock p len * p.slots + 1) % p.slots) = some
      (.full, 3) := by
    intro image
    obtain ⟨i, read, entries⟩ := root_inode f site planted inodes fits plan.fan
    obtain ⟨i', read', named⟩ := sane.root
    cases read.symm.trans read'
    rw [entries, if_pos image] at named
    have found : Gofs.FullSlot _ (sb.rootIno + 1) := named _ List.mem_cons_self
    rw [Gofs.FullSlot, f.kernel_ino large plan.fan some_slot] at found
    dsimp only at found
    rw [slots] at found
    obtain ⟨e', A', hdr', T', entry', surveyed', slot⟩ := found
    cases f.entry.symm.trans entry'
    have same := tree_unique surveyed' (B := site.ag) rfl rfl rfl header rfl fun c hc =>
        sown.models hc
    have inside : (inoBlock p len * p.slots + 1) / p.slots / CELL_BLOCKS < site.ag.cells := by
      apply site.ag.lt_cells
      show _ < len
      have row : (inoBlock p len + 1) * p.slots < len * p.slots :=
          Nat.mul_lt_mul_of_pos_right f.ino_lt some_slot
      rw [Nat.add_mul] at row
      exact (Nat.div_lt_iff_lt_mul some_slot).mpr (by omega)
    have agree : T' _ = Mkfs.planted len (topCell p len) (p.kernelBlocks > 0) _ := same _ inside
    rw [spot, ← agree]
    exact slot
  refine ⟨fun j asked' => ?_, fun k asked' => ?_⟩
  · rw [MkfsPlan.journalBlocks, asked, asked', Option.getD_some, MkfsPlan.bs, asked] at journal
    exact journal
  · have image : p.opts.kernel = some k := asked.symm ▸ asked'
    have length : p.kernelLen = k.1 := by
      rw [MkfsPlan.kernelLen, image]
      rfl
    have found := full (by rw [image]; rfl)
    have second : 2 ≤ p.slots := by
      by_contra few
      have one : p.slots = 1 := by omega
      rw [one, Nat.mul_one, Nat.div_one] at found
      obtain ⟨st, depth, low, leaf⟩ := spot_planted len (p.kernelBlocks > 0)
        (Nat.succ_ne_self (inoBlock p len)) ((inoBlock p len + 1) % 1)
      rw [leaf] at found
      injection found with found
      injection found with _ three
      omega
    refine ⟨?_, ?_, ?_⟩
    · by_contra empty
      have none : p.kernelBlocks = 0 := by
        rw [MkfsPlan.kernelBlocks, divCeil]
        exact Nat.div_eq_of_lt (by omega)
      have block : (inoBlock p len * p.slots + 1) / p.slots = inoBlock p len := by
        rw [Nat.mul_comm, Nat.mul_add_div (by omega), Nat.div_eq_of_lt (by omega), Nat.add_zero]
      have slot : (inoBlock p len * p.slots + 1) % p.slots = 1 := by
        rw [Nat.mul_comm, Nat.mul_add_mod, Nat.mod_eq_of_lt (by omega)]
      rw [block, slot, none, inoBlock, spot_slots (by decide)] at found
      cases found
    · rw [MkfsPlan.kernelBlocks, length, MkfsPlan.bs, asked] at kernel
      exact kernel
    · rw [MkfsPlan.slots, asked] at second
      exact second

theorem mkfs_formatted {now : Ts} {d' : Device} {summary : MkfsSummary} {g : Gofs}
    (typed : opts.Typed d uuid)
    (made : mkfs opts uuid now d = (.ok summary, d')) (opened : Gofs.openRw d'.reopen = .ok g) :
    ∃ p len rest sb map, Accepted opts uuid d p ∧ Formatted p len rest d' sb map ∧
    map.entries.length < 2 ^ 32 ∧
      g = { dev := d'.reopen, sb, map } := by
  obtain ⟨p, e, plan, -, loop⟩ := mkfs_plan typed made
  have asked := plan.asked
  have wide : p.opts.Typed d p.uuid := by
    rw [asked, plan.named]
    exact typed
  obtain ⟨len, rest, sb, map, f⟩ := wp_ok (formatted_wp p plan.power plan.large wide plan.inodesize
    plan.some_block plan.size (d := e)) loop
  obtain ⟨sb', map', top, image, labels⟩ := mkfs_labels typed made
  have same := image.stored.found.symm.trans f.stored.found
  cases same
  have same := image.stored.map.symm.trans f.stored.map
  cases same
  have mounted := image.mounts labels
  rw [opened] at mounted
  exact ⟨p, len, rest, sb, map, plan, f, labels.fits.count, Except.ok.inj mounted⟩

end Formatted

end Mkfs

/-- mkfs establishes the invariants of a volume exactly for proper options. -/
theorem mkfs_establishes_iff [Crc32c] {opts : MkfsOpts} {uuid : Nat} {now : Ts} {d d' : Device}
    {summary : MkfsSummary} {g : Gofs} (typed : opts.Typed d uuid)
    (inodes : INODE_SIZE ≤ opts.inodesize)
    (made : Mkfs.mkfs opts uuid now d = (.ok summary, d'))
    (opened : Gofs.openRw d'.reopen = .ok g) :
    g.Established (Mkfs.deviceSize opts d / opts.blocksize) ↔ opts.Proper := by
  obtain ⟨p, len, rest, sb, map, plan, f, count, rfl⟩ := Mkfs.mkfs_formatted typed made opened
  exact ⟨Mkfs.proper_of_established f plan inodes, Mkfs.established f plan typed inodes count⟩

/-- The small image with a kernel image of no bytes. -/
def hollowOpts : MkfsOpts := { smallOpts with kernel := some (0, zeros) }

theorem hollowOpts_typed : hollowOpts.Typed emptyFile 0 := by
  refine ⟨by decide, by decide, smallOpts_typed.size, smallOpts_typed.journal,
      smallOpts_typed.label, fun k image => ?_,
    by decide, by decide⟩
  cases image
  decide

theorem hollow_made : ∃ summary d', @Mkfs.mkfs castagnoli hollowOpts 0 ⟨0, 0⟩
    emptyFile = (.ok summary, d') := by
  have done : (match (@Mkfs.mkfs castagnoli hollowOpts 0 ⟨0, 0⟩ emptyFile).1 with
      | .ok _ => true
      | .error _ => false) = true := by decide +kernel
  rcases run : @Mkfs.mkfs castagnoli hollowOpts 0 ⟨0, 0⟩ emptyFile with ⟨e | summary, d'⟩
  · rw [run] at done
    cases done
  · exact ⟨summary, d', rfl⟩

/-- An empty kernel gets an inode in a FREE slot. -/
theorem mkfs_not_established : ¬ ∀ (opts : MkfsOpts) (uuid : Nat) (now : Ts) (d d' : Device)
    (summary : MkfsSummary)
    (g : Gofs), opts.Typed d uuid → INODE_SIZE ≤ opts.inodesize →
      @Mkfs.mkfs castagnoli opts uuid now d = (.ok summary, d') →
      @Gofs.openRw castagnoli d'.reopen = .ok g →
        @Gofs.Established castagnoli g (Mkfs.deviceSize opts d / opts.blocksize) := by
  let crc := castagnoli
  intro sane
  obtain ⟨summary, d', made⟩ := hollow_made
  obtain ⟨sb, map, image⟩ := Mkfs.mkfs_image hollowOpts_typed made
  obtain ⟨g, opened⟩ := image.opens
  obtain ⟨p, len, rest, sb, map, plan, f, -, rfl⟩ :=
      Mkfs.mkfs_formatted hollowOpts_typed made opened
  have proper := Mkfs.proper_of_established f plan (by decide)
    (sane hollowOpts 0 ⟨0, 0⟩ emptyFile d' summary _ hollowOpts_typed (by decide) made opened)
  exact Nat.lt_irrefl 0 (proper.kernel (0, zeros) rfl).1

theorem mkfs_establishes_small : ∃ d' summary g,
    @Mkfs.mkfs castagnoli smallOpts 0 ⟨0, 0⟩ emptyFile = (.ok summary, d') ∧
    @Gofs.openRw castagnoli d'.reopen = .ok g ∧
    (@Gofs.Established castagnoli g (Mkfs.deviceSize smallOpts emptyFile / smallOpts.blocksize) ↔
    smallOpts.Proper) := by
  let crc := castagnoli
  obtain ⟨summary, d', made⟩ := small_made
  obtain ⟨sb, map, image⟩ := Mkfs.mkfs_image smallOpts_typed made
  obtain ⟨g, opened⟩ := image.opens
  exact ⟨d', summary, g, made, opened, mkfs_establishes_iff smallOpts_typed (by decide) made opened⟩

end FiveFs
