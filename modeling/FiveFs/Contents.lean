import FiveFs.Forest
import FiveFs.Labels

/-! What mkfs leaves on the device: each of its steps writes inside its own region. -/

namespace FiveFs.Mkfs

open Buffer Prog Device

/-- The bytes of the blocks `a..b` of the AG at `off`. -/
def InBlocks (off bs a b x : Nat) : Prop := off + a * bs ≤ x ∧ x < off + b * bs

theorem inBlocks_of {off bs a b i n x : Nat} (low : a ≤ i) (high : i + n ≤ b)
    (start : off + i * bs ≤ x)
    (stop : x < off + i * bs + n * bs) : InBlocks off bs a b x := by
  have first : a * bs ≤ i * bs := Nat.mul_le_mul_right _ low
  have last : (i + n) * bs ≤ b * bs := Nat.mul_le_mul_right _ high
  rw [Nat.add_mul] at last
  exact ⟨by omega, by omega⟩

theorem not_inBlocks {off bs a b i n x : Nat} (apart : i + n ≤ a ∨ b ≤ i) (start : off + i * bs ≤ x)
    (stop : x < off + i * bs + n * bs) : ¬ InBlocks off bs a b x := by
  rintro ⟨low, high⟩
  rcases apart with before | behind
  · have last : (i + n) * bs ≤ a * bs := Nat.mul_le_mul_right _ before
    rw [Nat.add_mul] at last
    omega
  · have first : b * bs ≤ i * bs := Nat.mul_le_mul_right _ behind
    omega

theorem zeroBlocks_kept {changed : Nat → Prop} {devOff bs : Nat} {is : List Nat}
    (inside : ∀ i ∈ is, ∀ x, devOff + i * bs ≤ x → x < devOff + i * bs + bs → changed x)
    (d : Device) :
    wp (zeroBlocks devOff bs is) (fun _ d' => Kept changed d d') Fails d := by
  induction is generalizing d with
  | nil => exact Kept.refl changed d
  | cons i rest ih =>
      rw [zeroBlocks, wp_bind, pwrite, wp_modify]
      have first := kept_pwrite (inside i List.mem_cons_self) d zeros
      exact wp_mono (ih (fun j member => inside j (List.mem_cons_of_mem _ member)) _)
        (fun _ _ rest => first.trans rest) fun _ _ _ => trivial

theorem tableBlocks_kept {changed : Nat → Prop} {devOff bs root : Nat} (table : Bytes)
    {is : List Nat}
    (inside : ∀ i ∈ is, ∀ x, devOff + (root + i) * bs ≤ x → x < devOff + (root + i) * bs + bs →
    changed x)
    (d : Device) : wp (tableBlocks devOff bs root table is) (fun _ d' => Kept changed d d') Fails
    d := by
  induction is generalizing d with
  | nil => exact Kept.refl changed d
  | cons i rest ih =>
      rw [tableBlocks, wp_bind, pwrite, wp_modify]
      have first := kept_pwrite (inside i List.mem_cons_self) d (clip bs (drop (i * bs) table))
      exact wp_mono (ih (fun j member => inside j (List.mem_cons_of_mem _ member)) _)
        (fun _ _ rest => first.trans rest) fun _ _ _ => trivial

theorem tableBlocks_stored {devOff bs root : Nat} (table : Bytes) {is : List Nat} (once : is.Nodup)
    (d : Device) :
    wp (tableBlocks devOff bs root table is) (fun _ d' => ∀ i ∈ is,
      Holds d' (devOff + (root + i) * bs) bs (clip bs (drop (i * bs) table))) Fails d := by
  induction is generalizing d with
  | nil => exact fun _ h => by cases h
  | cons i rest ih =>
      obtain ⟨fresh, once⟩ := List.nodup_cons.mp once
      rw [tableBlocks, wp_bind, pwrite, wp_modify]
      set d₁ := d.pwrite (devOff + (root + i) * bs) bs (clip bs (drop (i * bs) table)) with written
      have here : Holds d₁ (devOff + (root + i) * bs) bs (clip bs (drop (i * bs) table)) :=
          holds_pwrite d _ _ _
      have others : wp (tableBlocks devOff bs root table rest)
          (fun _ d' => Kept (fun x => ¬ InBlocks devOff bs (root + i) (root + i + 1) x) d₁ d') Fails
          d₁ := by
        apply tableBlocks_kept
        intro j member x start stop
        have other : j ≠ i := fun equal => fresh (equal ▸ member)
        exact not_inBlocks (n := 1) (by omega) start (by omega)
      refine wp_mono (wp_and others (ih once d₁)) ?_ fun _ _ _ => trivial
      rintro _ d' ⟨kept, later⟩ j member
      rcases List.mem_cons.mp member with rfl | member
      · apply here.kept kept
        intro k hk outside
        exact outside (inBlocks_of (n := 1) (Nat.le_refl _) (Nat.le_refl _) (by omega) (by omega))
      · exact later j member

variable [Crc32c]

/-- The header and the root table of an AG are on the device. -/
structure AgStored (bs : Nat) (d : Device) (ag off : Nat) (hdr : AgHeader) (table : Bytes)
    (rtBlocks : Nat) :
    Prop where
  header : Holds d (off + hdrBlock ag * bs) bs (clip AGHDR_SIZE hdr.toBytes)
  table : ∀ i < rtBlocks, Holds d (off + (allocRoot ag + i) * bs) bs (clip bs (drop (i * bs) table))

theorem AgStored.kept {bs ag off rtBlocks : Nat} {d d' : Device} {hdr : AgHeader} {table : Bytes}
    {changed : Nat → Prop} (h : AgStored bs d ag off hdr table rtBlocks) (kept : Kept changed d d')
    (outside : ∀ x, InBlocks off bs (hdrBlock ag) (allocRoot ag + rtBlocks) x → ¬ changed x) :
    AgStored bs d' ag off hdr table rtBlocks := by
  refine ⟨h.header.kept kept fun k hk => outside _ ?_,
      fun i hi => (h.table i hi).kept kept fun k hk => outside _ ?_⟩
  · have root : hdrBlock ag + 1 ≤ allocRoot ag + rtBlocks := Nat.le_add_right _ _
    exact inBlocks_of (n := 1) (Nat.le_refl _) root (by omega) (by omega)
  · have header : hdrBlock ag ≤ allocRoot ag + i :=
        Nat.le_trans (Nat.le_succ _) (Nat.le_add_right _ _)
    exact inBlocks_of (n := 1) header (by omega) (Nat.le_add_right _ k) (by omega)

theorem metadata_kept (p : MkfsPlan) {ag next devOff rtBlocks : Nat} (hdr : AgHeader)
    (table : Bytes)
    (room : allocRoot ag + rtBlocks ≤ next) (d : Device) :
    wp (metadata p ag next devOff rtBlocks hdr table)
      (fun _ d' => Kept (InBlocks devOff p.bs 0 next) d d') Fails d := by
  have header : hdrBlock ag + 1 ≤ next := by
    rw [allocRoot] at room
    omega
  have zeroed : ∀ i ∈ List.range next, ∀ x, devOff + i * p.bs ≤ x → x < devOff + i * p.bs + p.bs →
      InBlocks devOff p.bs 0 next x := fun i member x start stop =>
    inBlocks_of (n := 1) (Nat.zero_le _) (List.mem_range.mp member) start (by omega)
  have named : ∀ x, devOff + hdrBlock ag * p.bs ≤ x → x < devOff + hdrBlock ag * p.bs + p.bs →
      InBlocks devOff p.bs 0 next x := fun x start stop =>
    inBlocks_of (n := 1) (Nat.zero_le _) header start (by omega)
  rw [metadata, wp_bind]
  refine wp_mono (zeroBlocks_kept zeroed d) ?_ fun _ _ _ => trivial
  intro _ d₁ first
  rw [wp_bind, pwrite, wp_modify]
  refine wp_mono (tableBlocks_kept table ?_ _) (fun _ _ rest =>
      (first.trans (kept_pwrite named d₁ _)).trans rest)
    fun _ _ _ => trivial
  intro i member x start stop
  have below := List.mem_range.mp member
  exact inBlocks_of (n := 1) (Nat.zero_le _) (by omega) start (by omega)

theorem metadata_stored (p : MkfsPlan) (ag next devOff rtBlocks : Nat) (hdr : AgHeader)
    (table : Bytes) (d : Device) :
    wp (metadata p ag next devOff rtBlocks hdr table)
      (fun _ d' => AgStored p.bs d' ag devOff hdr table rtBlocks) Fails d := by
  have tables : wp (metadata p ag next devOff rtBlocks hdr table)
      (fun _ d' => ∀ i ∈ List.range rtBlocks,
      Holds d' (devOff + (allocRoot ag + i) * p.bs) p.bs (clip p.bs (drop (i * p.bs) table))) Fails
      d := by
    rw [metadata, wp_bind]
    refine wp_mono (zeroBlocks_wp devOff p.bs (List.range next) d) ?_ fun _ _ _ => trivial
    intro _ d₁ _
    rw [wp_bind, pwrite, wp_modify]
    exact tableBlocks_stored table List.nodup_range _
  refine wp_mono (wp_and (metadata_headed p ag next devOff rtBlocks hdr table d) tables) ?_
      fun _ _ _ => trivial
  exact fun _ _ both => ⟨both.1, fun i hi => both.2 i (List.mem_range.mpr hi)⟩

/-- Blocks not reserved and not in use. -/
def nextHeader (ag len head : Nat) : AgHeader := {
  agNum := ag
  gen := 1
  length := len
  freeBlocks := openCells ag len head * CELL_BLOCKS
  rsvdBlocks := len - openCells ag len head * CELL_BLOCKS
  fullBlocks := 0
  allocRoot := allocRoot ag
  inoHint := 0
  dataHint := head * CELL_BLOCKS
  tblArena := 0 }

def firstHeader (len head : Nat) : AgHeader := {
  agNum := 0
  gen := 1
  length := len
  freeBlocks := (openCells 0 len head - 2) * CELL_BLOCKS + (CELL_BLOCKS - 1)
  rsvdBlocks := len - ((openCells 0 len head - 2) * CELL_BLOCKS + (CELL_BLOCKS - 1) + 1)
  fullBlocks := 1
  allocRoot := allocRoot 0
  inoHint := (head + 1) * CELL_BLOCKS
  dataHint := head * CELL_BLOCKS
  tblArena := head * CELL_BLOCKS }

def newTable (ag len head : Nat) : Bytes := (reservedTable ag len (cellCount len) head).1

def firstTable (len head : Nat) : Bytes := inodeCells (newTable 0 len head) (cellCount len) head

omit [Crc32c] in
theorem openCells_eq {ag len head : Nat} (some_cell : 0 < cellCount len) :
    openCells ag len head = cellCount len - (reservedTable ag len (cellCount len) head).2 := by
  rw [openCells, reservedTable_count some_cell]

theorem nextAg_stored (p : MkfsPlan) {ag agLen : Nat} (m : MkfsState) (some_block : 0 < agLen)
    (d : Device) :
    wp (nextAg p ag agLen m) (fun m' d' =>
      AgStored p.bs d' ag m.devOff (nextHeader ag agLen
          (divCeil (allocRoot ag + (rtGeometry agLen p.bs).2) CELL_BLOCKS))
        (newTable ag agLen (divCeil (allocRoot ag + (rtGeometry agLen p.bs).2) CELL_BLOCKS))
        (rtGeometry agLen p.bs).2 ∧
      Kept (InBlocks m.devOff p.bs 0 (allocRoot ag + (rtGeometry agLen p.bs).2)) d d' ∧
      openCells ag agLen (divCeil (allocRoot ag + (rtGeometry agLen p.bs).2) CELL_BLOCKS) *
          CELL_BLOCKS ≤ agLen ∧
      m'.sb = m.sb ∧ m'.devOff = m.devOff + agLen * p.bs ∧ m'.rootIno = m.rootIno) Fails d := by
  have some_cell : 0 < cellCount agLen := by
    rw [cellCount, CELL_BLOCKS]
    omega
  have cells : (rtGeometry agLen p.bs).1 = cellCount agLen := rfl
  rw [nextAg]
  dsimp only
  rw [cells, wp_bind]
  refine wp_mono (subtract_wp _ _ _) ?_ fun _ _ _ => trivial
  rintro freeCells _ ⟨rfl, -, free⟩
  rw [← openCells_eq some_cell] at free
  subst free
  rw [wp_bind]
  refine wp_mono (subtract_wp _ _ _) ?_ fun _ _ _ => trivial
  rintro rsvd _ ⟨rfl, small, rfl⟩
  rw [wp_bind]
  refine wp_mono (wp_and (metadata_stored p _ _ _ _ _ _ _) (metadata_kept p _ _ (Nat.le_refl _) _))
      ?_
    fun _ _ _ => trivial
  exact fun _ d' both => ⟨both.1, both.2, small, rfl, rfl, rfl⟩

/-- The first cell of an AG past its fixed metadata. -/
def headCells (bs ag len : Nat) : Nat := divCeil (allocRoot ag + (rtGeometry len bs).2) CELL_BLOCKS

/-- An AG with nothing in it is stored at `off`. -/
def EmptyStored (bs : Nat) (d : Device) (ag off len : Nat) : Prop :=
  AgStored bs d ag off (nextHeader ag len (headCells bs ag len))
  (newTable ag len (headCells bs ag len))
    (rtGeometry len bs).2 ∧
  openCells ag len (headCells bs ag len) * CELL_BLOCKS ≤ len

/-- The AGs laid out one after the other. -/
def AllStored (bs : Nat) (d : Device) : Nat → Nat → List Nat → Prop
  | _, _, [] => True
  | ag, off, len :: rest =>
      EmptyStored bs d ag off len ∧ AllStored bs d (ag + 1) (off + len * bs) rest

theorem AllStored.kept {changed : Nat → Prop} {bs ag off : Nat} {lens : List Nat} {d d' : Device}
    (h : AllStored bs d ag off lens) (kept : Kept changed d d')
    (outside : ∀ x, off ≤ x → ¬ changed x) :
    AllStored bs d' ag off lens := by
  induction lens generalizing ag off with
  | nil => trivial
  | cons len rest ih =>
      obtain ⟨⟨stored, free⟩, later⟩ := h
      refine ⟨⟨stored.kept kept fun x inside => outside x
          (Nat.le_trans (Nat.le_add_right _ _) inside.1), free⟩, ?_⟩
      exact ih later fun x behind => outside x (Nat.le_trans (Nat.le_add_right _ _) behind)

omit [Crc32c] in
theorem rtBlocks_le {len bs : Nat} (large : 2048 ≤ bs) (some_blocks : 16 ≤ len) :
    3 + (rtGeometry len bs).2 ≤ len := by
  have geometry : (rtGeometry len bs).2 =
      ((cellCount len + 3) / 4 + cellCount len * 6 + bs - 1) / bs := rfl
  have cells : cellCount len ≤ len / 256 + 1 := by
    rw [cellCount, CELL_BLOCKS]
    omega
  obtain ⟨n, rfl⟩ : ∃ n, len = n + 3 := ⟨len - 3, by omega⟩
  have fits : (cellCount (n + 3) + 3) / 4 + cellCount (n + 3) * 6 + bs - 1 < (n + 1) * bs := by
    have rows : n * 2048 ≤ n * bs := Nat.mul_le_mul_left _ large
    rw [Nat.succ_mul]
    omega
  have below : (rtGeometry (n + 3) bs).2 < n + 1 := by
    rw [geometry]
    exact (Nat.div_lt_iff_lt_mul (by omega)).mpr fits
  omega

theorem agLoop_kept (p : MkfsPlan) {lens : List Nat} (blocks : ∀ len ∈ lens, 16 ≤ len)
    {ag : Nat} (later : ag ≠ 0) (m : MkfsState) (d : Device) :
    wp (agLoop p lens ag m) (fun _ d' => Kept (fun x => m.devOff ≤ x) d d') Fails d := by
  induction lens generalizing ag m d with
  | nil => exact Kept.refl _ d
  | cons len rest ih =>
      have some_blocks := blocks len List.mem_cons_self
      rw [agLoop, wp_bind, agBody, if_neg later]
      refine wp_mono (nextAg_stored p m (by omega) d) ?_ fun _ _ _ => trivial
      rintro m₁ d₁ ⟨-, kept, -, -, devOff, -⟩
      refine wp_mono (ih (fun l member => blocks l (List.mem_cons_of_mem _ member))
          (Nat.succ_ne_zero ag) m₁ d₁) ?_
        fun _ _ _ => trivial
      intro _ d₂ kept'
      exact (kept.mono fun x inside => Nat.le_trans (Nat.le_add_right _ _) inside.1).trans
        (kept'.mono fun x behind => by omega)

theorem agLoop_stored (p : MkfsPlan) (large : 2048 ≤ p.bs) {lens : List Nat}
    (blocks : ∀ len ∈ lens, 16 ≤ len)
    {ag : Nat} (later : ag ≠ 0) (m : MkfsState) (d : Device) :
    wp (agLoop p lens ag m) (fun m' d' => AllStored p.bs d' ag m.devOff lens ∧ m'.sb = m.sb ∧
      m'.rootIno = m.rootIno) Fails d := by
  induction lens generalizing ag m d with
  | nil => exact ⟨trivial, rfl, rfl⟩
  | cons len rest ih =>
      have some_blocks := blocks len List.mem_cons_self
      have others := fun l member => blocks l (List.mem_cons_of_mem len member)
      rw [agLoop, wp_bind, agBody, if_neg later]
      refine wp_mono (nextAg_stored p m (by omega) d) ?_ fun _ _ _ => trivial
      rintro m₁ d₁ ⟨stored, -, free, sb, devOff, rootIno⟩
      refine wp_mono (wp_and (agLoop_kept p others (Nat.succ_ne_zero ag) m₁ d₁)
        (ih others (Nat.succ_ne_zero ag) m₁ d₁)) ?_ fun _ _ _ => trivial
      rintro m₂ d₂ ⟨kept, below, sb', rootIno'⟩
      rw [devOff] at below kept
      refine ⟨⟨⟨stored.kept kept ?_, free⟩, below⟩, sb'.trans sb, rootIno'.trans rootIno⟩
      rintro x ⟨-, inside⟩ behind
      have fits := rtBlocks_le large some_blocks
      have root : allocRoot ag ≤ 2 := by
        rw [allocRoot, hdrBlock]
        split <;> decide
      have rows : (allocRoot ag + (rtGeometry len p.bs).2) * p.bs ≤ len * p.bs :=
          Nat.mul_le_mul_right _ (by omega)
      omega

-- AG 0

/-- The extent of the kernel and the kernel's inode. -/
abbrev kernelExtents (p : MkfsPlan) (start : Nat) : List Extent :=
    [⟨0, blkAddr 0 start, p.kernelBlocks % 2 ^ 32⟩]

def storedKernel (p : MkfsPlan) (start : Nat) : Inode :=
  { kernelInode p with payload := putExtents zeros 0 (kernelExtents p start) }

abbrev kernelEntry (rootIno : Nat) : DirEntry := ⟨rootIno + 1, DT_FILE, kernelName⟩

/-- The root directory, with its entry for the kernel. -/
def storedRoot (p : MkfsPlan) (rootIno : Nat) : Inode :=
  if p.opts.kernel.isSome then
    { rootInode p.now with format := FMT_EMBED, payload := firstEntry (kernelEntry rootIno) }
  else rootInode p.now

/-- The writes of `kernelFile`. -/
def kernelWrites (p : MkfsPlan) (start devOff inoHint : Nat) (d : Device) : Device :=
  match p.opts.kernel with
  | none => d
  | some (len, kernel) =>
      (d.pwrite (devOff + start * p.bs) (p.kernelBlocks * p.bs) (clip len kernel)).pwrite
        (devOff + inoHint * p.bs + p.opts.inodesize) INODE_SIZE
        (clip INODE_SIZE (storedKernel p start).toBytes)

theorem kernelFile_run (p : MkfsPlan) (start devOff inoHint rootIno : Nat) (d : Device) :
    kernelFile p start devOff inoHint rootIno (rootInode p.now) p.opts.kernel d =
      (.ok (storedRoot p rootIno), kernelWrites p start devOff inoHint d) := by
  rw [storedRoot, kernelWrites]
  cases p.opts.kernel with
  | none => rfl
  | some image =>
      have short : (kernelEntry rootIno).need ≤ INODE_PAYLOAD := by
        show 30 ≤ 128
        decide
      have entry : dirAppend (rootInode p.now).payload (kernelEntry rootIno) =
          .ok (firstEntry (kernelEntry rootIno)) := dirAppend_zeros short
      have extents : ∀ s : Device, (ofResult (extentsStore (kernelExtents p start)) : Prog Device
          Bytes) s =
          (.ok (putExtents zeros 0 (kernelExtents p start)), s) := fun _ => rfl
      have named : ∀ s : Device, (ofResult (dirAppend (rootInode p.now).payload
          (kernelEntry rootIno)) :
          Prog Device Bytes) s = (.ok (firstEntry (kernelEntry rootIno)), s) := by
        intro s
        rw [entry]
        rfl
      rw [kernelFile]
      simp only [pwrite]
      rw [bind_ok _ _ (modify_run _), bind_ok _ _ (extents _), bind_ok _ _ (modify_run _)]
      exact bind_ok _ _ (named _)

section First

variable (p : MkfsPlan) (len : Nat)

/-- What `head0` says about AG 0: the first block past the head, that of the kernel, the superblock.
-/
def headOf : Nat × Nat × Superblock := head0 p (allocRoot 0 + (rtGeometry len p.bs).2) 0 p.proto

/-- The first block past the head, and the cell it rounds up to. -/
def topBlock : Nat := (headOf p len).1
def topCell : Nat := divCeil (topBlock p len) CELL_BLOCKS
def inoBlock : Nat := (topCell p len + 1) * CELL_BLOCKS
def rootIno : Nat := inoAddr 0 (inoBlock p len * p.slots)

/-- The journal and the kernel can be counted in 32 bits. -/
structure Narrow : Prop where
  journal : p.journalBlocks < 2 ^ 32
  kernel : p.kernelBlocks < 2 ^ 32

/-- The slots of the inode block: the root, the kernel, and nothing in the others. -/
structure Slotted (d : Device) : Prop where
  root : Holds d (inoBlock p len * p.bs) INODE_SIZE
      (clip INODE_SIZE (storedRoot p (rootIno p len)).toBytes)
  kernel : p.opts.kernel.isSome → Holds d (inoBlock p len * p.bs + p.opts.inodesize) INODE_SIZE
    (clip INODE_SIZE (storedKernel p (headOf p len).2.1).toBytes)
  blank : ∀ s, 0 < s → (p.opts.kernel.isSome → s ≠ 1) → (s + 1) * p.opts.inodesize ≤ p.bs →
    Holds d (inoBlock p len * p.bs + s * p.opts.inodesize) p.opts.inodesize zeros

/-- What AG 0 consists of. -/
structure Planted (d : Device) : Prop where
  stored : AgStored p.bs d 0 0 (firstHeader len (topCell p len)) (firstTable len (topCell p len))
      (rtGeometry len p.bs).2
  arena : Holds d (topCell p len * CELL_BLOCKS * p.bs) p.bs
    (arenaTable p.bs (topCell p len * CELL_BLOCKS) (p.kernelBlocks > 0))
  slotted : INODE_SIZE ≤ p.opts.inodesize → Slotted p len d

/-- What the loop body for AG 0 returns. -/
structure First (m : MkfsState) : Prop where
  roomy : topBlock p len + 3 * CELL_BLOCKS < len
  cells : topCell p len + 2 < cellCount len
  blocks : (openCells 0 len (topCell p len) - 2) * CELL_BLOCKS + (CELL_BLOCKS - 1) + 1 ≤ len
  sb : m.sb = (headOf p len).2.2
  rootIno : m.rootIno = Mkfs.rootIno p len

end First

variable {p : MkfsPlan} {len : Nat} {d d' : Device}

omit [Crc32c] in
theorem topBlock_ge (p : MkfsPlan) (len : Nat) :
    allocRoot 0 + (rtGeometry len p.bs).2 ≤ topBlock p len := by
  rw [topBlock, headOf, head0]
  dsimp only
  split
  · exact Nat.le_trans (Nat.le_add_right _ _) (Nat.le_trans (Nat.le_add_right _ _)
        (Nat.le_add_right _ _))
  · exact Nat.le_trans (Nat.le_add_right _ _) (Nat.le_add_right _ _)

omit [Crc32c] in
theorem kernel_region (len : Nat) (narrow : Narrow p) : p.kernelBlocks = 0 ∨
    allocRoot 0 + (rtGeometry len p.bs).2 ≤ (headOf p len).2.1 ∧
      (headOf p len).2.1 + p.kernelBlocks = topBlock p len := by
  by_cases some_kernel : p.kernelBlocks > 0
  · right
    rw [topBlock, headOf, head0]
    dsimp only
    rw [if_pos some_kernel]
    dsimp only
    rw [Nat.mod_eq_of_lt narrow.kernel]
    exact ⟨Nat.le_trans (Nat.le_add_right _ _) (Nat.le_add_right _ _), rfl⟩
  · left
    omega

omit [Crc32c] in
theorem top_le_cell (p : MkfsPlan) (len : Nat) : topBlock p len ≤ topCell p len * CELL_BLOCKS := by
  rw [topCell, divCeil, CELL_BLOCKS]
  omega

omit [Crc32c] in
/-- The kernel image is between the reference table and the top of the metadata. -/
theorem kernel_bytes (len : Nat) (narrow : Narrow p) {x : Nat}
    (inside : InBlocks 0 p.bs (headOf p len).2.1 ((headOf p len).2.1 + p.kernelBlocks) x) :
    x < topBlock p len * p.bs ∧ (allocRoot 0 + (rtGeometry len p.bs).2) * p.bs ≤ x := by
  obtain ⟨low, high⟩ := inside
  rcases kernel_region len narrow with none | ⟨behind, last⟩
  · rw [none, Nat.add_zero] at high
    omega
  · rw [last] at high
    have first : (allocRoot 0 + (rtGeometry len p.bs).2) * p.bs ≤ (headOf p len).2.1 * p.bs :=
      Nat.mul_le_mul_right _ behind
    exact ⟨by omega, by omega⟩

theorem kernelWrites_kept (p : MkfsPlan) (start inoHint : Nat) (d : Device) :
    Kept (fun x => InBlocks 0 p.bs start (start + p.kernelBlocks) x ∨
      inoHint * p.bs + p.opts.inodesize ≤ x ∧ x < inoHint * p.bs + p.opts.inodesize + INODE_SIZE) d
      (kernelWrites p start 0 inoHint d) := by
  rw [kernelWrites]
  split
  · exact Kept.refl _ d
  · refine (kept_pwrite (fun x low high => .inl ?_) d _).trans
        (kept_pwrite (fun x low high => .inr ?_) _ _)
    · exact inBlocks_of (n := p.kernelBlocks) (Nat.le_refl _) (Nat.le_refl _) low high
    · rw [Nat.zero_add] at low high
      exact ⟨low, high⟩

/-- The slots behind the root's, and the kernel's if there is one, stay as the inode block was
blanked. -/
theorem slot_blank (narrow : Narrow p) {d₂ : Device} {s : Nat} (some_slot : 0 < s)
    (other : p.opts.kernel.isSome → s ≠ 1) (inside : (s + 1) * p.opts.inodesize ≤ p.bs)
    (wide : INODE_SIZE ≤ p.opts.inodesize)
    (head : topBlock p len * p.bs ≤ inoBlock p len * p.bs) :
    Holds (kernelWrites p (headOf p len).2.1 0 (inoBlock p len)
        (d₂.pwrite (inoBlock p len * p.bs) p.bs zeros))
      (inoBlock p len * p.bs + s * p.opts.inodesize) p.opts.inodesize zeros := by
  have zeroed : Holds (d₂.pwrite (inoBlock p len * p.bs) p.bs zeros)
      (inoBlock p len * p.bs + s * p.opts.inodesize) p.opts.inodesize zeros := by
    rw [Nat.add_mul] at inside
    exact (holds_pwrite d₂ (inoBlock p len * p.bs) p.bs zeros).part (by omega)
  rcases found : p.opts.kernel with _ | content
  · rw [kernelWrites, found]
    exact zeroed
  · have later : 2 * p.opts.inodesize ≤ s * p.opts.inodesize := by
      apply Nat.mul_le_mul_right
      have second := other (by rw [found]; rfl)
      omega
    apply zeroed.kept (kernelWrites_kept p (headOf p len).2.1 (inoBlock p len) _)
    rintro k hk (among | ⟨-, high⟩)
    · have first := (kernel_bytes len narrow among).1
      omega
    · omega

/-- The body for AG 0, up to its last step: what is on the device once the metadata is there. -/
theorem planted_of_metadata {d₁ d₂ : Device} (narrow : Narrow p) (block : INODE_SIZE ≤ p.bs)
    (arena : Holds d₁ (topCell p len * CELL_BLOCKS * p.bs) p.bs
      (arenaTable p.bs (topCell p len * CELL_BLOCKS) (p.kernelBlocks > 0)))
    (stored : AgStored p.bs d₂ 0 0 (firstHeader len (topCell p len))
        (firstTable len (topCell p len))
      (rtGeometry len p.bs).2)
    (kept : Kept (InBlocks 0 p.bs 0 (topBlock p len)) d₁ d₂) :
    Planted p len ((kernelWrites p (headOf p len).2.1 0 (inoBlock p len)
      (d₂.pwrite (inoBlock p len * p.bs) p.bs zeros)).pwrite (inoBlock p len * p.bs) INODE_SIZE
        (clip INODE_SIZE (storedRoot p (rootIno p len)).toBytes)) := by
  have top := top_le_cell p len
  have table := topBlock_ge p len
  have ino : topCell p len * CELL_BLOCKS + 1 ≤ inoBlock p len := by
    rw [inoBlock, Nat.add_mul, CELL_BLOCKS]
    omega
  have rows : (topCell p len * CELL_BLOCKS + 1) * p.bs ≤ inoBlock p len * p.bs :=
      Nat.mul_le_mul_right _ ino
  rw [Nat.add_mul] at rows
  -- what the writes behind the metadata reach
  have blanked : Kept (InBlocks 0 p.bs (inoBlock p len) (inoBlock p len + 2)) d₂
      (d₂.pwrite (inoBlock p len * p.bs) p.bs zeros) :=
    kept_pwrite (fun x low high => inBlocks_of (i := inoBlock p len) (n := 1) (Nat.le_refl _)
        (by omega) (by omega)
      (by omega)) d₂ zeros
  have image := kernelWrites_kept p (headOf p len).2.1 (inoBlock p len)
      (d₂.pwrite (inoBlock p len * p.bs) p.bs zeros)
  have rooted : ∀ d b, Kept (fun x => inoBlock p len * p.bs ≤ x ∧
      x < inoBlock p len * p.bs + INODE_SIZE) d
      (d.pwrite (inoBlock p len * p.bs) INODE_SIZE b) :=
      fun d b => kept_pwrite (fun x low high => ⟨low, high⟩) d b
  have head : topBlock p len * p.bs ≤ topCell p len * CELL_BLOCKS * p.bs :=
      Nat.mul_le_mul_right _ top
  refine ⟨?_, ?_, fun inodes => ⟨holds_pwrite _ _ _ _, ?_, ?_⟩⟩
  · have early : ∀ x, InBlocks 0 p.bs (hdrBlock 0) (allocRoot 0 + (rtGeometry len p.bs).2) x →
        x < topCell p len * CELL_BLOCKS * p.bs ∧ ¬ InBlocks 0 p.bs (headOf p len).2.1
          ((headOf p len).2.1 + p.kernelBlocks) x := by
      rintro x ⟨-, high⟩
      have last : (allocRoot 0 + (rtGeometry len p.bs).2) * p.bs ≤ topBlock p len * p.bs :=
        Nat.mul_le_mul_right _ table
      refine ⟨by omega, fun inside => ?_⟩
      have behind := (kernel_bytes len narrow inside).2
      omega
    refine ((stored.kept blanked ?_).kept image ?_).kept (rooted _ _) ?_
    · rintro x inside ⟨low, -⟩
      have first := (early x inside).1
      omega
    · rintro x inside (among | ⟨low, -⟩)
      · exact (early x inside).2 among
      · have first := (early x inside).1
        omega
    · rintro x inside ⟨low, -⟩
      have first := (early x inside).1
      omega
  · refine (((arena.kept kept ?_).kept blanked ?_).kept image ?_).kept (rooted _ _) ?_
    · rintro k hk ⟨-, high⟩
      omega
    · rintro k hk ⟨low, -⟩
      omega
    · rintro k hk (among | ⟨low, -⟩)
      · have first := (kernel_bytes len narrow among).1
        omega
      · omega
    · rintro k hk ⟨low, -⟩
      omega
  · intro with_kernel
    refine Holds.pwrite ?_ (.inr (by omega)) _
    obtain ⟨content, found⟩ := Option.isSome_iff_exists.mp with_kernel
    have place : 0 + inoBlock p len * p.bs + p.opts.inodesize = inoBlock p
        len * p.bs + p.opts.inodesize := by omega
    rw [kernelWrites, found]
    dsimp only
    rw [place]
    exact holds_pwrite _ _ _ _
  · intro s some_slot other inside
    have slot : p.opts.inodesize ≤ s * p.opts.inodesize := Nat.le_mul_of_pos_left _ some_slot
    refine Holds.pwrite ?_ (.inr (by omega)) _
    exact slot_blank narrow some_slot other inside inodes (by omega)

theorem firstAg_stored (p : MkfsPlan) (len : Nat) (block : INODE_SIZE ≤ p.bs) (d : Device) :
    wp (firstAg p len { sb := p.proto })
      (fun m' d' => First p len m' ∧ m'.devOff = len * p.bs ∧ (Narrow p → Planted p len d')) Fails
      d := by
  have cells : (rtGeometry len p.bs).1 = cellCount len := rfl
  rw [firstAg]
  dsimp only
  rw [wp_ite, cells]
  split
  · trivial
  · rename_i roomy
    have roomy : topBlock p len + 3 * CELL_BLOCKS < len := Nat.lt_of_not_le roomy
    rw [wp_ite]
    split
    · trivial
    · rename_i cellsFit
      have cellsFit : topCell p len + 2 < cellCount len := Nat.lt_of_not_le cellsFit
      have some_cell : 0 < cellCount len := by omega
      rw [wp_bind, pwrite, wp_modify, wp_bind]
      refine wp_mono (subtract_wp _ _ _) ?_ fun _ _ _ => trivial
      rintro freeCells _ ⟨rfl, -, free⟩
      have free : freeCells = openCells 0 len (topCell p len) - 2 := by
        rw [openCells_eq some_cell, Nat.sub_sub]
        exact free
      subst free
      rw [wp_bind]
      refine wp_mono (subtract_wp _ _ _) ?_ fun _ _ _ => trivial
      rintro rsvd _ ⟨rfl, small, rest⟩
      rw [rest]
      rw [wp_bind]
      refine wp_mono (wp_and (metadata_stored p 0 (topBlock p len) 0 (rtGeometry len p.bs).2
        (firstHeader len (topCell p len)) (firstTable len (topCell p len)) _)
        (metadata_kept p (firstHeader len (topCell p len)) (firstTable len (topCell p len))
        (topBlock_ge p len) _)) ?_
        fun _ _ _ => trivial
      rintro _ d₂ ⟨stored, kept⟩
      rw [wp_bind, pwrite, wp_modify, wp_bind, wp_run (kernelFile_run p _ _ _ _ _), wp_bind, pwrite,
          wp_modify, wp_pure]
      refine ⟨⟨roomy, cellsFit, small, rfl, rfl⟩, Nat.zero_add _, fun narrow => ?_⟩
      have arena : Holds (d.pwrite (0 + topCell p len * CELL_BLOCKS * p.bs) p.bs
          (arenaTable p.bs (topCell p len * CELL_BLOCKS) (p.kernelBlocks > 0)))
          (topCell p len * CELL_BLOCKS * p.bs) p.bs
          (arenaTable p.bs (topCell p len * CELL_BLOCKS) (p.kernelBlocks > 0)) := by
        rw [Nat.zero_add]
        exact holds_pwrite d _ _ _
      have place : 0 + inoBlock p len * p.bs = inoBlock p len * p.bs := Nat.zero_add _
      have planted := planted_of_metadata narrow block arena stored kept
      show Planted p len ((kernelWrites p (headOf p len).2.1 0 (inoBlock p len)
        (d₂.pwrite (0 + inoBlock p len * p.bs) p.bs zeros)).pwrite (0 + inoBlock p len * p.bs)
        INODE_SIZE
          (clip INODE_SIZE (storedRoot p (Mkfs.rootIno p len)).toBytes))
      rw [place]
      exact planted

theorem Planted.kept {changed : Nat → Prop} (h : Planted p len d) (kept : Kept changed d d')
    (block : INODE_SIZE ≤ p.bs) (fits : p.opts.inodesize ≤ p.bs)
    (outside : ∀ x, InBlocks 0 p.bs (hdrBlock 0) (allocRoot 0 + (rtGeometry len p.bs).2) x ∨
      InBlocks 0 p.bs (topCell p len * CELL_BLOCKS) (inoBlock p len + 2) x → ¬ changed x) : Planted
      p len d' := by
  have ino : topCell p len * CELL_BLOCKS + 1 ≤ inoBlock p len := by
    rw [inoBlock, Nat.add_mul, CELL_BLOCKS]
    omega
  have rows : (topCell p len * CELL_BLOCKS + 1) * p.bs ≤ inoBlock p len * p.bs :=
      Nat.mul_le_mul_right _ ino
  have late : ∀ x, topCell p len * CELL_BLOCKS * p.bs ≤ x → x < inoBlock p len * p.bs + 2 * p.bs →
      ¬ changed x :=
    fun x low high => outside x (.inr ⟨by omega, by rw [Nat.add_mul]; omega⟩)
  rw [Nat.add_mul] at rows
  refine ⟨h.stored.kept kept fun x inside => outside x (.inl inside),
      h.arena.kept kept fun k hk => late _ ?_ ?_,
    fun inodes => ⟨(h.slotted inodes).root.kept kept fun k hk => late _ ?_ ?_,
      fun image => ((h.slotted inodes).kernel image).kept kept fun k hk => late _ ?_ ?_,
      fun s some other inside =>
        ((h.slotted inodes).blank s some other inside).kept kept fun k hk => late _ ?_ ?_⟩⟩
  · omega
  · omega
  · omega
  · omega
  · omega
  · omega
  · omega
  · rw [Nat.add_mul] at inside
    omega

omit [Crc32c] in
theorem agmap_room (p : MkfsPlan) (large : 2048 ≤ p.bs) :
    2 * p.agmapBlocks % 2 ^ 32 = 2 * p.agmapBlocks ∧
    2 * AGMAP_BYTES ≤ 2 * p.agmapBlocks * p.bs := by
  constructor
  · apply Nat.mod_eq_of_lt
    have blocks : p.agmapBlocks ≤ AGMAP_BYTES := by
      rw [MkfsPlan.agmapBlocks, divCeil]
      apply Nat.div_le_of_le_mul
      have rows : 1 * AGMAP_BYTES ≤ p.bs * AGMAP_BYTES := Nat.mul_le_mul_right _ (by omega)
      rw [AGMAP_BYTES] at rows ⊢
      omega
    rw [AGMAP_BYTES] at blocks
    omega
  · have ceil := Nat.div_add_mod (AGMAP_BYTES + p.bs - 1) p.bs
    have rest := Nat.mod_lt (AGMAP_BYTES + p.bs - 1) (show 0 < p.bs by omega)
    have copy : AGMAP_BYTES ≤ p.agmapBlocks * p.bs := by
      rw [MkfsPlan.agmapBlocks, divCeil]
      rw [Nat.mul_comm] at ceil
      omega
    rw [Nat.mul_assoc]
    omega

/-- The head of AG 0: the AG map copies, the journal and the kernel follow the root table. -/
structure Regions (p : MkfsPlan) (len : Nat) (sb : Superblock) : Prop where
  agmap : sb.agmapOffset = (allocRoot 0 + (rtGeometry len p.bs).2) * p.bs
  journal : sb.journalStart = allocRoot 0 + (rtGeometry len p.bs).2 + 2 * p.agmapBlocks
  top : sb.journalStart + p.journalBlocks % 2 ^ 32 + p.kernelBlocks % 2 ^ 32 = topBlock p len
  kernel : 0 < p.kernelBlocks → (headOf p len).2.1 = sb.journalStart + p.journalBlocks % 2 ^ 32 ∧
    sb.kernelOffset = (headOf p len).2.1 * p.bs ∧ sb.kernelEnd = sb.kernelOffset + p.kernelLen
  none : p.kernelBlocks = 0 → sb.kernelOffset = 0 ∧ sb.kernelEnd = 0
  blocksize : sb.blocksize = p.bs
  inodesize : sb.inodesize = p.opts.inodesize
  agmapLength : sb.agmapLength = AGMAP_BYTES
  journalLength : sb.journalLength = p.journalBlocks

omit [Crc32c] in
theorem headOf_regions (p : MkfsPlan) (len : Nat) (large : 2048 ≤ p.bs) :
    Regions p len (headOf p len).2.2 := by
  have fits := (agmap_room p large).1
  by_cases some_kernel : p.kernelBlocks > 0
  · have expand : headOf p len = (allocRoot 0 + (rtGeometry len p.bs).2 + 2 * p.agmapBlocks +
        p.journalBlocks % 2 ^ 32 + p.kernelBlocks % 2 ^ 32, allocRoot 0 + (rtGeometry len p.bs).2 +
        2 * p.agmapBlocks + p.journalBlocks % 2 ^ 32, { p.proto with
          agmapOffset := (allocRoot 0 + (rtGeometry len p.bs).2) * p.bs
          journalStart := allocRoot 0 + (rtGeometry len p.bs).2 + 2 * p.agmapBlocks
          kernelOffset := (allocRoot 0 + (rtGeometry len p.bs).2 + 2 * p.agmapBlocks +
            p.journalBlocks % 2 ^ 32) * p.bs
          kernelEnd := (allocRoot 0 + (rtGeometry len p.bs).2 + 2 * p.agmapBlocks +
            p.journalBlocks % 2 ^ 32) * p.bs + p.kernelLen }) := by
      rw [headOf, head0]
      dsimp only
      rw [if_pos some_kernel, fits, Nat.zero_add, blkAddr, Nat.zero_mul, Nat.zero_add]
    refine ⟨?_, ?_, ?_, fun _ => ⟨?_, ?_, ?_⟩, fun none => by omega, ?_, ?_, ?_, ?_⟩ <;>
      (try rw [topBlock]) <;> rw [expand] <;> rfl
  · have expand : headOf p len = (allocRoot 0 + (rtGeometry len p.bs).2 + 2 * p.agmapBlocks +
        p.journalBlocks % 2 ^ 32, 0, { p.proto with
          agmapOffset := (allocRoot 0 + (rtGeometry len p.bs).2) * p.bs
          journalStart := allocRoot 0 + (rtGeometry len p.bs).2 + 2 * p.agmapBlocks }) := by
      rw [headOf, head0]
      dsimp only
      rw [if_neg some_kernel, fits, Nat.zero_add, blkAddr, Nat.zero_mul, Nat.zero_add]
    have none : p.kernelBlocks = 0 := by omega
    refine ⟨?_, ?_, ?_, fun some => by omega, fun _ => ⟨?_, ?_⟩, ?_, ?_, ?_, ?_⟩ <;>
      (try rw [topBlock, none]) <;> rw [expand] <;> rfl

/-- What `finish` writes: the superblock copies, the AG map copies and the journal. -/
def Trailer (p : MkfsPlan) (len : Nat) (x : Nat) : Prop :=
  x < p.bs ∨ (allocRoot 0 + (rtGeometry len p.bs).2) * p.bs ≤ x ∧ x < topBlock p len * p.bs ∨
    (len - 1) * p.bs ≤ x ∧ x < len * p.bs

theorem finish_kept {m : MkfsState} {rest : List Nat} (large : 2048 ≤ p.bs) (narrow : Narrow p)
    (lengths : p.lengths = len :: rest) (sb : m.sb = (headOf p len).2.2) (some_block : 0 < len)
    (small : topBlock p len < 2 ^ 32) (d : Device) :
    wp (finish p m) (fun _ d' => Kept (Trailer p len) d d') Fails d := by
  have regions := headOf_regions p len large
  have agmap := (agmap_room p large).2
  have journal := regions.top
  rw [Nat.mod_eq_of_lt narrow.journal, Nat.mod_eq_of_lt narrow.kernel] at journal
  have rows : (allocRoot 0 + (rtGeometry len p.bs).2 + 2 * p.agmapBlocks) * p.bs ≤ topBlock p
      len * p.bs := by
    apply Nat.mul_le_mul_right
    rw [← journal, regions.journal]
    omega
  rw [Nat.add_mul] at rows
  have block : SB_SIZE ≤ p.bs := Nat.le_trans (by decide) large
  have whole : len * p.bs = (len - 1) * p.bs + p.bs := by
    rw [← Nat.succ_mul]
    congr 1
    omega
  have copy0 : ∀ x, (headOf p len).2.2.agmapOffset ≤ x →
      x < (headOf p len).2.2.agmapOffset + AGMAP_BYTES →
      Trailer p len x := by
    intro x low high
    rw [regions.agmap] at low high
    exact .inr (.inl ⟨low, by omega⟩)
  have copy1 : ∀ x, (headOf p len).2.2.agmapOffset + AGMAP_BYTES ≤ x →
      x < (headOf p len).2.2.agmapOffset + AGMAP_BYTES + AGMAP_BYTES → Trailer p len x := by
    intro x low high
    rw [regions.agmap] at low high
    exact .inr (.inl ⟨by omega, by omega⟩)
  have primary : ∀ x, 0 ≤ x → x < 0 + SB_SIZE → Trailer p len x := fun x _ high => .inl (by omega)
  have backup : ∀ x, (len - 1) * p.bs ≤ x → x < (len - 1) * p.bs + SB_SIZE → Trailer p len x :=
    fun x low high => .inr (.inr ⟨low, by omega⟩)
  have zeroed : ∀ i ∈ List.range' ((headOf p len).2.2.journalStart % 2 ^ 32) p.journalBlocks, ∀ x,
      0 + i * p.bs ≤ x → x < 0 + i * p.bs + p.bs → Trailer p len x := by
    intro i member x low high
    obtain ⟨start, stop⟩ := List.mem_range'_1.mp member
    rw [Nat.mod_eq_of_lt (by omega)] at start stop
    have lower : (allocRoot 0 + (rtGeometry len p.bs).2) * p.bs ≤ i * p.bs := by
      apply Nat.mul_le_mul_right
      rw [regions.journal] at start
      omega
    have upper : (i + 1) * p.bs ≤ topBlock p len * p.bs := Nat.mul_le_mul_right _ (by omega)
    rw [Nat.add_mul] at upper
    exact .inr (.inl ⟨by omega, by omega⟩)
  rw [finish]
  dsimp only
  rw [wp_bind, wp_ofResult]
  split
  · rw [wp_bind, pwrite, wp_modify, wp_bind, pwrite, wp_modify, wp_bind, sb]
    refine wp_mono (zeroBlocks_kept zeroed _) ?_ fun _ _ _ => trivial
    intro _ d₁ journaled
    rw [wp_bind, pwrite, wp_modify, wp_bind]
    refine wp_mono (subtract_wp _ _ _) ?_ fun _ _ _ => trivial
    rintro len0 _ ⟨rfl, -, rfl⟩
    rw [wp_bind, pwrite, wp_modify, wp_bind, wp_modify, wp_pure, lengths, List.headD_cons]
    have mapped := ((kept_pwrite copy0 d _).trans (kept_pwrite copy1 _ _)).trans journaled
    exact ((mapped.trans (kept_pwrite primary _ _)).trans (kept_pwrite backup _ _)).sync
  · trivial

section Lengths

omit [Crc32c]

variable {maxAg : Nat}

theorem agLengths_large (small : maxAg + 1024 < 2 ^ 32) {fuel remaining l : Nat}
    (enough : remaining = 0 ∨ 1024 ≤ remaining) (member : l ∈ agLengths maxAg fuel remaining) :
    min maxAg 1024 ≤ l := by
  induction fuel generalizing remaining with
  | zero => cases member
  | succ fuel ih =>
      rw [agLengths] at member
      split at member
      · cases member
      · dsimp only at member
        split at member
        · rw [List.mem_singleton.mp member, Nat.mod_eq_of_lt (by omega)]
          omega
        · rcases List.mem_cons.mp member with rfl | later
          · rw [Nat.mod_eq_of_lt (by omega)]
            omega
          · exact ih (by omega) later

theorem agLengths_total (small : maxAg + 1024 < 2 ^ 32) (some_block : 0 < maxAg)
    {fuel remaining : Nat}
    (rounds : remaining ≤ fuel) : (agLengths maxAg fuel remaining).sum = remaining := by
  induction fuel generalizing remaining with
  | zero =>
      rw [agLengths]
      exact (Nat.le_zero.mp rounds).symm
  | succ fuel ih =>
      rw [agLengths]
      split
      · rename_i none
        exact none.symm
      · dsimp only
        split
        · rw [List.sum_singleton, Nat.mod_eq_of_lt (by omega)]
        · rw [List.sum_cons, Nat.mod_eq_of_lt (by omega), ih (by omega)]
          omega

theorem maxAg_bounds (p : MkfsPlan) (large : 2048 ≤ p.bs) (small : p.bs < 2 ^ 32) :
    16 ≤ p.maxAgBlocks ∧ p.maxAgBlocks ≤ 33554432 := by
  have upper : p.maxAgBlocks ≤ MAX_AG_BYTES / 2048 := Nat.div_le_div_left large (by decide)
  have lower : MAX_AG_BYTES / 2 ^ 32 ≤ p.maxAgBlocks :=
      Nat.div_le_div_left (Nat.le_of_lt small) (by omega)
  have least : MAX_AG_BYTES / 2 ^ 32 = 16 := by decide
  have most : MAX_AG_BYTES / 2048 = 33554432 := by decide
  omega

theorem rest_large (p : MkfsPlan) (large : 2048 ≤ p.bs) (small : p.bs < 2 ^ 32) {len : Nat}
    {rest : List Nat}
    (lengths : p.lengths = len :: rest) : ∀ l ∈ rest, 16 ≤ l := by
  obtain ⟨least, most⟩ := maxAg_bounds p large small
  intro l member
  rcases total : p.totalBlocks with _ | k
  · rw [MkfsPlan.lengths, total] at lengths
    cases lengths
  · rw [MkfsPlan.lengths, total, agLengths, if_neg (Nat.succ_ne_zero k)] at lengths
    dsimp only at lengths
    split at lengths
    · injection lengths with _ none
      rw [← none] at member
      cases member
    · injection lengths with _ tail
      rw [← tail] at member
      have bound := agLengths_large (by omega : p.maxAgBlocks + 1024 < 2 ^ 32) (by omega) member
      omega

end Lengths

/-- What a successful mkfs with plan `p` leaves. -/
structure Formatted (p : MkfsPlan) (len : Nat) (rest : List Nat) (d : Device) (sb : Superblock)
    (map : AgMap) : Prop where
  lengths : p.lengths = len :: rest
  stored : Gofs.Stored d.reopen sb map
  entries : map.entries = laidOut p.bs 0 0 (len :: rest)
  regions : Regions p len sb
  roomy : topBlock p len + 3 * CELL_BLOCKS < len
  cells : topCell p len + 2 < cellCount len
  blocks : (openCells 0 len (topCell p len) - 2) * CELL_BLOCKS + (CELL_BLOCKS - 1) + 1 ≤ len
  small : len < 2 ^ 32
  ino : sb.rootIno = rootIno p len
  contents : Narrow p → Planted p len d ∧ AllStored p.bs d 1 (len * p.bs) rest

theorem formatted_wp (p : MkfsPlan) (power : Superblock.isPowerOfTwo p.opts.blocksize = true)
    (large : 2048 ≤ p.opts.blocksize) {d₀ d : Device} (typed : p.opts.Typed d₀ p.uuid)
    (fits : p.opts.inodesize ≤ p.opts.blocksize)
    (blocks : 0 < p.totalBlocks) (size : p.size < 2 ^ 63) :
    wp (agLoop p p.lengths 0 { sb := p.proto } >>= finish p)
      (fun _ d' => ∃ len rest sb map, Formatted p len rest d' sb map) Fails d := by
  obtain ⟨len, rest, lengths⟩ := lengths_cons p blocks
  have some_bytes : 0 < p.bs := Nat.lt_of_lt_of_le (by decide) large
  have block : INODE_SIZE ≤ p.bs := Nat.le_trans (by decide) large
  have rests := rest_large p large typed.blocksize lengths
  have first : wp (agLoop p (len :: rest) 0 { sb := p.proto })
      (fun m d' => First p len m ∧ (Narrow p → Planted p len d' ∧
      AllStored p.bs d' 1 (len * p.bs) rest))
      Fails d := by
    rw [agLoop, wp_bind, agBody, if_pos rfl]
    refine wp_mono (firstAg_stored p len block d) ?_ fun _ _ _ => trivial
    rintro m₁ d₁ ⟨first, devOff, planted⟩
    refine wp_mono (wp_and (agLoop_kept p rests Nat.one_ne_zero m₁ d₁)
      (agLoop_stored p large rests Nat.one_ne_zero m₁ d₁)) ?_ fun _ _ _ => trivial
    rintro m₂ d₂ ⟨kept, stored, sb, ino⟩
    rw [devOff] at kept stored
    refine ⟨⟨first.roomy, first.cells, first.blocks, sb.trans first.sb, ino.trans first.rootIno⟩,
        fun narrow => ?_⟩
    refine ⟨(planted narrow).kept kept block fits ?_, stored⟩
    have within : inoBlock p len + 2 ≤ len := by
      have cells := first.cells
      rw [cellCount, CELL_BLOCKS] at cells
      rw [inoBlock, CELL_BLOCKS]
      omega
    have table := topBlock_ge p len
    have roomy := first.roomy
    rintro x (⟨-, high⟩ | ⟨-, high⟩) behind
    · have rows : (allocRoot 0 + (rtGeometry len p.bs).2) * p.bs ≤ len * p.bs :=
          Nat.mul_le_mul_right _ (by omega)
      omega
    · have rows : (inoBlock p len + 2) * p.bs ≤ len * p.bs := Nat.mul_le_mul_right _ within
      omega
  rw [wp_bind, lengths]
  refine wp_mono (wp_and (agLoop_zero_wp p some_bytes { sb := p.proto } ⟨rfl, rfl⟩ d) first) ?_
      fun _ _ _ => trivial
  rintro m d₁ ⟨⟨-, ⟨next, head⟩, entries, sums⟩, first, contents⟩
  rw [← lengths] at entries sums
  have looped : Looped p len rest m next := ⟨lengths, head, entries, sums⟩
  have capacity : m.sb.agmapLength = AGMAP_BYTES := by rw [head.rest]; rfl
  have small := looped.inside.1
  have some_block : 0 < len := by
    have roomy := first.roomy
    omega
  have top : topBlock p len < 2 ^ 32 := by
    have roomy := first.roomy
    omega
  refine wp_mono (wp_and (finish_wp p lengths head rfl capacity large small rfl
    (looped.fits rfl power large typed size) (looped.mapFits size) d₁) (wp_forall (fun narrow =>
      finish_kept large narrow lengths first.sb some_block top d₁) fun _ _ => trivial)) ?_
          fun _ _ _ => trivial
  rintro _ d₂ ⟨⟨-, -, stored, -, -⟩, kept⟩
  have regions := headOf_regions p len large
  refine ⟨len, rest, _, _, lengths, stored, ?_, ?_, first.roomy, first.cells, first.blocks, small,
      first.rootIno,
    fun narrow => ⟨(contents narrow).1.kept (kept narrow) block fits ?_, ?_⟩⟩
  · show m.entries = _
    rw [looped.entries, lengths]
  · rw [← first.sb] at regions
    exact ⟨regions.agmap, regions.journal, regions.top, regions.kernel, regions.none,
        regions.blocksize,
      regions.inodesize, regions.agmapLength, regions.journalLength⟩
  · have table := topBlock_ge p len
    have roomy := first.roomy
    have within : inoBlock p len + 2 ≤ len - 1 := by
      have cells := first.cells
      rw [cellCount, CELL_BLOCKS] at cells
      rw [inoBlock, CELL_BLOCKS]
      omega
    have last : topBlock p len * p.bs ≤ (len - 1) * p.bs := Nat.mul_le_mul_right _ (by omega)
    have tables : (allocRoot 0 + (rtGeometry len p.bs).2) * p.bs ≤ topBlock p len * p.bs :=
      Nat.mul_le_mul_right _ table
    have inos : (inoBlock p len + 2) * p.bs ≤ (len - 1) * p.bs := Nat.mul_le_mul_right _ within
    have cell : topBlock p len * p.bs ≤ topCell p len * CELL_BLOCKS * p.bs :=
      Nat.mul_le_mul_right _ (top_le_cell p len)
    have second : 1 * p.bs ≤ topBlock p len * p.bs :=
      Nat.mul_le_mul_right _ (Nat.le_trans (Nat.le_add_left 1 _)
      (Nat.le_trans (Nat.le_add_right _ _) table))
    have header : hdrBlock 0 * p.bs = p.bs := Nat.one_mul _
    rintro x (⟨low, high⟩ | ⟨low, high⟩) (before | ⟨after, before⟩ | ⟨after, -⟩) <;> omega
  · apply (contents narrow).2.kept (kept narrow)
    have roomy := first.roomy
    have rows : topBlock p len * p.bs ≤ len * p.bs := Nat.mul_le_mul_right _ (by omega)
    have block : 1 * p.bs ≤ len * p.bs := Nat.mul_le_mul_right _ some_block
    rintro x behind (before | ⟨-, before⟩ | ⟨-, before⟩) <;> omega

end FiveFs.Mkfs
