import FiveFs.Codec

/-! Where a volume keeps its superblock copies, AG map and journal, and the writes of one commit. -/

namespace FiveFs

open Buffer

/-- Two byte ranges do not meet. -/
def Apart (a n b m : Nat) : Prop := a + n ≤ b ∨ b + m ≤ a

namespace Device

def pwriteAll (ws : List Write) (d : Device) : Device :=
  ws.foldl (fun d w => d.pwrite w.off w.len w.data) d

theorem pwriteAll_cons (w : Write) (ws : List Write) (d : Device) :
    d.pwriteAll (w :: ws) = (d.pwrite w.off w.len w.data).pwriteAll ws := rfl

theorem pwriteAll_append (ws vs : List Write) (d : Device) :
    d.pwriteAll (ws ++ vs) = (d.pwriteAll ws).pwriteAll vs := List.foldl_append

@[simp] theorem pwriteAll_bytes (ws : List Write) (d : Device) :
    (d.pwriteAll ws).bytes = Write.applyAll ws d.bytes := by
  induction ws generalizing d with
  | nil => rfl
  | cons w ws ih => rw [pwriteAll_cons, ih]; rfl

@[simp] theorem pwriteAll_log (ws : List Write) (d : Device) :
    (d.pwriteAll ws).log = d.log ++ ws.map .write := by
  induction ws generalizing d with
  | nil => simp [pwriteAll]
  | cons w ws ih => rw [pwriteAll_cons, ih]; simp [pwrite]

@[simp] theorem pwriteAll_size (ws : List Write) (d : Device) :
    (d.pwriteAll ws).size = d.size := by
  induction ws generalizing d with
  | nil => rfl
  | cons w ws ih => rw [pwriteAll_cons, ih]; rfl

theorem pwriteAll_fileLen {ws : List Write} {d : Device}
    (inside : ∀ w ∈ ws, w.off + w.len ≤ d.fileLen) : (d.pwriteAll ws).fileLen = d.fileLen := by
  induction ws generalizing d with
  | nil => rfl
  | cons w ws ih =>
      have first : (d.pwrite w.off w.len w.data).fileLen = d.fileLen :=
        max_eq_left (inside w List.mem_cons_self)
      rw [pwriteAll_cons, ih, first]
      intro v member
      rw [first]
      exact inside v (List.mem_cons_of_mem _ member)

end Device

namespace Gofs

open Prog

/-- The state after further writes to the device. -/
def written (ws : List Write) (g : Gofs) : Gofs := { g with dev := g.dev.pwriteAll ws }

def synced (g : Gofs) : Gofs := { g with dev := g.dev.sync }

/-- AG 0 starts the device in one segment of `agLen` blocks; the AG map copies and the journal lie
in it, in this order, between the AG header and the backup superblock. -/
structure Layout (g : Gofs) (agLen : Nat) : Prop where
  fits : g.sb.Fits
  blocksize : 2048 ≤ g.sb.blocksize
  entry : ∃ e rest, g.map.entries = e :: rest ∧ e.flags &&& AGF_PRESENT ≠ 0 ∧ e.length = agLen ∧
    e.segs = [⟨0, agLen, 0⟩]
  small : agLen < 2 ^ 32
  device : agLen * g.sb.blocksize ≤ g.dev.fileLen
  agmap : 2 * g.sb.blocksize ≤ g.sb.agmapOffset ∧
    g.sb.agmapOffset + 2 * g.sb.agmapLength ≤ g.sb.journalStart * g.sb.blocksize
  journal : g.sb.journalStart + g.sb.journalLength < agLen
  journalLength : 3 ≤ g.sb.journalLength

/-- Two states of one volume: only the contents and the checkpoint differ. -/
structure Alike (g g' : Gofs) : Prop where
  map : g'.map = g.map
  blocksize : g'.sb.blocksize = g.sb.blocksize
  agmapOffset : g'.sb.agmapOffset = g.sb.agmapOffset
  agmapLength : g'.sb.agmapLength = g.sb.agmapLength
  journalStart : g'.sb.journalStart = g.sb.journalStart
  journalLength : g'.sb.journalLength = g.sb.journalLength
  fileLen : g'.dev.fileLen = g.dev.fileLen

/-- Byte offset of a mapped block. -/
def blockOff (g : Gofs) (blk : Nat) : Nat := (g.map.resolve blk g.sb.blocksize).getD 0

def journalOff (g : Gofs) (idx : Nat) : Nat := (g.sb.journalStart + idx) * g.sb.blocksize

/-- Contents of a block on device contents `d`. -/
def blockAt (g : Gofs) (d : Bytes) (blk : Nat) : Option Bytes :=
  (g.map.resolve blk g.sb.blocksize).map fun off => clip g.sb.blocksize (drop off d)

/-- The header of AG 0, as `find_superblock` looks for it. -/
def HeaderOk [Crc32c] (agLen : Nat) (data : Bytes) : Prop :=
  ∃ h, AgHeader.parse (clip AGHDR_SIZE data) = .ok h ∧ h.agNum = 0 ∧ h.length = agLen

/-- A transaction may replace block `blk` by `data`: the block is outside the superblocks, the AG
map and the journal, and AG 0's header stays one. -/
structure TargetOk [Crc32c] (g : Gofs) (agLen blk : Nat) (data : Bytes) : Prop where
  addr : blk < 2 ^ 64
  whole : clip g.sb.blocksize data = data
  mapped : g.map.resolve blk g.sb.blocksize = some (g.blockOff blk)
  device : g.blockOff blk + g.sb.blocksize ≤ g.dev.fileLen
  primary : g.sb.blocksize ≤ g.blockOff blk
  backup : Apart (g.blockOff blk) g.sb.blocksize ((agLen - 1) * g.sb.blocksize) g.sb.blocksize
  agmap : Apart (g.blockOff blk) g.sb.blocksize g.sb.agmapOffset (2 * g.sb.agmapLength)
  journal : Apart (g.blockOff blk) g.sb.blocksize (g.journalOff 0)
    (g.sb.journalLength * g.sb.blocksize)
  header : Apart (g.blockOff blk) g.sb.blocksize g.sb.blocksize g.sb.blocksize ∨
    (g.blockOff blk = g.sb.blocksize ∧ HeaderOk agLen data)

/-- A non-empty transaction that fits the journal, with permitted targets. -/
structure TxnOk [Crc32c] (g : Gofs) (agLen : Nat) (t : Txn) : Prop where
  nonempty : t.blocks ≠ []
  targets : t.blocks.length ≤ maxTargets g.sb.blocksize
  length : t.blocks.length + 2 ≤ g.sb.journalLength
  target : ∀ b ∈ t.blocks, TargetOk g agLen b.1 b.2

/-- Block `blk` lies on the device, outside the journal. -/
structure Home (g : Gofs) (blk : Nat) : Prop where
  mapped : g.map.resolve blk g.sb.blocksize = some (g.blockOff blk)
  device : g.blockOff blk + g.sb.blocksize ≤ g.dev.fileLen
  journal : Apart (g.blockOff blk) g.sb.blocksize (g.journalOff 0)
    (g.sb.journalLength * g.sb.blocksize)

/-- A transaction that can be recorded and applied. -/
structure Recordable (g : Gofs) (t : Txn) : Prop where
  nonempty : t.blocks ≠ []
  targets : t.blocks.length ≤ maxTargets g.sb.blocksize
  length : t.blocks.length + 2 ≤ g.sb.journalLength
  addr : ∀ b ∈ t.blocks, b.1 < 2 ^ 64
  whole : ∀ b ∈ t.blocks, clip g.sb.blocksize b.2 = b.2
  home : ∀ b ∈ t.blocks, Home g b.1

/-- Journal index of the next record: a record that does not fit before the end starts over. -/
def recordPos (g : Gofs) (t : Txn) : Nat :=
  if g.sb.journalHead + (t.blocks.length + 2) > g.sb.journalLength then 0 else g.sb.journalHead

def recordData (g : Gofs) : Nat → List Bytes → List Write
  | _, [] => []
  | idx, data :: rest => ⟨g.journalOff idx, g.sb.blocksize, data⟩ :: recordData g (idx + 1) rest

/-- The journal writes of a commit. -/
def recordWrites [Crc32c] (g : Gofs) (t : Txn) : List Write :=
  let bs := g.sb.blocksize
  let pos := g.recordPos t
  let desc := descBlock bs g.sb.journalSeq t.targets
  let blocks := t.blocks.map Prod.snd
  ⟨g.journalOff pos, bs, desc⟩ :: (g.recordData (pos + 1) blocks ++
    [⟨g.journalOff (pos + t.blocks.length + 1), bs,
      commitBlock bs g.sb.journalSeq (txnCsum bs desc blocks)⟩])

/-- The in-place writes of a commit. -/
def inPlace (g : Gofs) (blocks : List (Nat × Bytes)) : List Write :=
  blocks.map fun b => ⟨g.blockOff b.1, g.sb.blocksize, b.2⟩

/-- The two superblock copies. -/
def superblockWrites [Crc32c] (g : Gofs) (agLen : Nat) (sb : Superblock) : List Write :=
  [⟨0, SB_SIZE, sb.toBytes⟩, ⟨(agLen - 1) * g.sb.blocksize, SB_SIZE, sb.toBytes⟩]

/-- The superblock after a commit of `t`. -/
def checkpoint (g : Gofs) (t : Txn) : Superblock :=
  { g.sb with
    journalHead := if g.recordPos t + (t.blocks.length + 2) ≥ g.sb.journalLength then 0
      else g.recordPos t + (t.blocks.length + 2)
    journalSeq := g.sb.journalSeq + 1
    gen := g.sb.gen + 1 }

@[simp] theorem written_sb (ws : List Write) (g : Gofs) : (g.written ws).sb = g.sb := rfl
@[simp] theorem written_map (ws : List Write) (g : Gofs) : (g.written ws).map = g.map := rfl
@[simp] theorem written_dev (ws : List Write) (g : Gofs) :
    (g.written ws).dev = g.dev.pwriteAll ws := rfl
@[simp] theorem synced_sb (g : Gofs) : g.synced.sb = g.sb := rfl
@[simp] theorem synced_map (g : Gofs) : g.synced.map = g.map := rfl
@[simp] theorem synced_dev (g : Gofs) : g.synced.dev = g.dev.sync := rfl

theorem written_written (ws vs : List Write) (g : Gofs) :
    (g.written ws).written vs = g.written (ws ++ vs) := by
  simp [written, Device.pwriteAll_append]

variable {g : Gofs} {agLen : Nat}

namespace Layout

theorem resolve (layout : Layout g agLen) (blk : Nat) (inside : blk < agLen) :
    g.map.resolve blk g.sb.blocksize = some (blk * g.sb.blocksize) := by
  obtain ⟨e, rest, entries, present, length, segs⟩ := layout.entry
  have small := layout.small
  have ag : blk / 2 ^ 32 = 0 := Nat.div_eq_of_lt (by omega)
  have loc : blk % 2 ^ 32 = blk := Nat.mod_eq_of_lt (by omega)
  simp only [AgMap.resolve, blkSplit, ag, loc, entries, List.getElem?_cons_zero]
  rw [if_neg (by omega), segs]
  simp [inside]

theorem backupOff (layout : Layout g agLen) :
    Gofs.backupOff g.map g.sb.blocksize = some ((agLen - 1) * g.sb.blocksize) := by
  obtain ⟨e, rest, entries, _, _, segs⟩ := layout.entry
  simp [Gofs.backupOff, entries, segs]

theorem journalPhys (layout : Layout g agLen) {idx : Nat} (inside : idx < g.sb.journalLength) :
    Gofs.journalPhys idx g = (.ok (g.journalOff idx), g) := by
  have member := layout.journal
  have offset := layout.resolve (g.sb.journalStart + idx) (by omega)
  simp only [Gofs.journalPhys, Gofs.resolve, bind_run, get_run, ite_run,
      if_neg (Nat.not_le.mpr inside),
    offset, pure_run]
  rfl

theorem alike (layout : Layout g agLen) {g' : Gofs} (same : Alike g g') (fits : g'.sb.Fits) :
    Layout g' agLen where
  fits := fits
  blocksize := by rw [same.blocksize]; exact layout.blocksize
  entry := by rw [same.map]; exact layout.entry
  small := layout.small
  device := by rw [same.blocksize, same.fileLen]; exact layout.device
  agmap := by
    rw [same.blocksize, same.agmapOffset, same.agmapLength, same.journalStart]
    exact layout.agmap
  journal := by rw [same.journalStart, same.journalLength]; exact layout.journal
  journalLength := by rw [same.journalLength]; exact layout.journalLength

theorem journalOff_bound (layout : Layout g agLen) {idx : Nat} (inside : idx < g.sb.journalLength) :
    g.journalOff idx + g.sb.blocksize ≤ (agLen - 1) * g.sb.blocksize := by
  have member := layout.journal
  calc
    g.journalOff idx + g.sb.blocksize = (g.sb.journalStart + idx + 1) * g.sb.blocksize := by
      rw [journalOff, Nat.succ_mul]
    _ ≤ (agLen - 1) * g.sb.blocksize := Nat.mul_le_mul_right _ (by omega)

theorem regions (layout : Layout g agLen) :
    2 * g.sb.blocksize ≤ g.sb.agmapOffset ∧
      g.sb.agmapOffset + 2 * g.sb.agmapLength ≤ g.journalOff 0 ∧
      g.journalOff 0 + g.sb.journalLength * g.sb.blocksize ≤ (agLen - 1) * g.sb.blocksize := by
  have agmap := layout.agmap
  have member := layout.journal
  have start : g.journalOff 0 = g.sb.journalStart * g.sb.blocksize := by
    rw [journalOff, Nat.add_zero]
  have top : g.sb.journalStart * g.sb.blocksize + g.sb.journalLength * g.sb.blocksize ≤
      (agLen - 1) * g.sb.blocksize := by
    rw [← Nat.add_mul]
    exact Nat.mul_le_mul_right _ (by omega)
  omega

theorem last_bound (layout : Layout g agLen) :
    (agLen - 1) * g.sb.blocksize + g.sb.blocksize ≤ g.dev.fileLen := by
  have member := layout.journal
  have length : (agLen - 1) * g.sb.blocksize + g.sb.blocksize = agLen * g.sb.blocksize := by
    rw [← Nat.succ_mul]
    congr 1
    omega
  rw [length]
  exact layout.device

end Layout

theorem pwrite_run (off n : Nat) (buf : Bytes) :
    pwrite off n buf g = (.ok (), g.written [⟨off, n, buf⟩]) := rfl

theorem sync_run : sync g = (.ok (), g.synced) := rfl

theorem journalWrite_run (layout : Layout g agLen) {idx : Nat} (inside : idx < g.sb.journalLength)
    (data : Bytes) : journalWrite idx data g =
      (.ok (), g.written [⟨g.journalOff idx, g.sb.blocksize, data⟩]) := by
  rw [journalWrite, bind_ok _ _ get_run, bind_ok _ _ (layout.journalPhys inside), pwrite_run]

namespace Alike

theorem refl (g : Gofs) : Alike g g := ⟨rfl, rfl, rfl, rfl, rfl, rfl, rfl⟩

theorem symm {g g' : Gofs} (h : Alike g g') : Alike g' g :=
  ⟨h.map.symm, h.blocksize.symm, h.agmapOffset.symm, h.agmapLength.symm, h.journalStart.symm,
    h.journalLength.symm, h.fileLen.symm⟩

theorem trans {g₁ g₂ g₃ : Gofs} (h : Alike g₁ g₂) (h' : Alike g₂ g₃) : Alike g₁ g₃ :=
  ⟨h'.map.trans h.map, h'.blocksize.trans h.blocksize, h'.agmapOffset.trans h.agmapOffset,
    h'.agmapLength.trans h.agmapLength, h'.journalStart.trans h.journalStart,
    h'.journalLength.trans h.journalLength, h'.fileLen.trans h.fileLen⟩

variable {g' : Gofs}

theorem blockOff (same : Alike g g') (blk : Nat) : g'.blockOff blk = g.blockOff blk := by
  rw [Gofs.blockOff, Gofs.blockOff, same.map, same.blocksize]

theorem journalOff (same : Alike g g') (idx : Nat) : g'.journalOff idx = g.journalOff idx := by
  rw [Gofs.journalOff, Gofs.journalOff, same.journalStart, same.blocksize]

theorem blockAt (same : Alike g g') (d : Bytes) (blk : Nat) :
    g'.blockAt d blk = g.blockAt d blk := by
  rw [Gofs.blockAt, Gofs.blockAt, same.map, same.blocksize]

theorem inPlace (same : Alike g g') (blocks : List (Nat × Bytes)) :
    g'.inPlace blocks = g.inPlace blocks := by
  simp only [Gofs.inPlace, same.blockOff, same.blocksize]

theorem target [Crc32c] (same : Alike g g') {blk : Nat} {data : Bytes}
    (ok : TargetOk g agLen blk data) : TargetOk g' agLen blk data where
  addr := ok.addr
  whole := by rw [same.blocksize]; exact ok.whole
  mapped := by rw [same.map, same.blocksize, same.blockOff]; exact ok.mapped
  device := by rw [same.blockOff, same.blocksize, same.fileLen]; exact ok.device
  primary := by rw [same.blockOff, same.blocksize]; exact ok.primary
  backup := by rw [same.blockOff, same.blocksize]; exact ok.backup
  agmap := by rw [same.blockOff, same.blocksize, same.agmapOffset, same.agmapLength]; exact ok.agmap
  journal := by
    rw [same.blockOff, same.blocksize, same.journalOff, same.journalLength]
    exact ok.journal
  header := by rw [same.blockOff, same.blocksize]; exact ok.header

theorem superblockWrites [Crc32c] (same : Alike g g') (sb : Superblock) :
    g'.superblockWrites agLen sb = g.superblockWrites agLen sb := by
  rw [Gofs.superblockWrites, Gofs.superblockWrites, same.blocksize]

theorem txn [Crc32c] (same : Alike g g') {t : Txn} (ok : TxnOk g agLen t) : TxnOk g' agLen t where
  nonempty := ok.nonempty
  targets := by rw [same.blocksize]; exact ok.targets
  length := by rw [same.journalLength]; exact ok.length
  target b member := same.target (ok.target b member)

end Alike

theorem TargetOk.home [Crc32c] {blk : Nat} {data : Bytes} (ok : TargetOk g agLen blk data) :
    Home g blk :=
  ⟨ok.mapped, ok.device, ok.journal⟩

theorem TxnOk.recordable [Crc32c] {t : Txn} (ok : TxnOk g agLen t) : Recordable g t where
  nonempty := ok.nonempty
  targets := ok.targets
  length := ok.length
  addr b member := (ok.target b member).addr
  whole b member := (ok.target b member).whole
  home b member := (ok.target b member).home

theorem Alike.home {g' : Gofs} (same : Alike g g') {blk : Nat} (home : Home g blk) :
    Home g' blk where
  mapped := by rw [same.map, same.blocksize, same.blockOff]; exact home.mapped
  device := by rw [same.blockOff, same.blocksize, same.fileLen]; exact home.device
  journal := by
    rw [same.blockOff, same.blocksize, same.journalOff, same.journalLength]
    exact home.journal

theorem Alike.recordable {g' : Gofs} (same : Alike g g') {t : Txn} (ok : Recordable g t) :
    Recordable g' t where
  nonempty := ok.nonempty
  targets := by rw [same.blocksize]; exact ok.targets
  length := by rw [same.journalLength]; exact ok.length
  addr := ok.addr
  whole := by rw [same.blocksize]; exact ok.whole
  home b member := same.home (ok.home b member)

theorem recordData_written (ws : List Write) (g : Gofs) (idx : Nat) (blocks : List Bytes) :
    (g.written ws).recordData idx blocks = g.recordData idx blocks := by
  induction blocks generalizing idx with
  | nil => rfl
  | cons data rest ih => rw [recordData, recordData, ih]; rfl

theorem mem_recordData {blocks : List Bytes} {idx : Nat} {w : Write}
    (member : w ∈ g.recordData idx blocks) :
    ∃ i, idx ≤ i ∧ i < idx + blocks.length ∧ w.off = g.journalOff i ∧ w.len = g.sb.blocksize := by
  induction blocks generalizing idx with
  | nil => cases member
  | cons data rest ih =>
      rw [recordData] at member
      rcases List.mem_cons.mp member with rfl | later
      · exact ⟨idx, Nat.le_refl idx, by simp, rfl, rfl⟩
      · obtain ⟨i, low, high, off, len⟩ := ih later
        exact ⟨i, by omega, by simp only [List.length_cons]; omega, off, len⟩

theorem recordData_data {blocks : List Bytes} {idx : Nat} {w : Write}
    (member : w ∈ g.recordData idx blocks) : w.data ∈ blocks := by
  induction blocks generalizing idx with
  | nil => cases member
  | cons data rest ih =>
      rw [recordData] at member
      rcases List.mem_cons.mp member with rfl | later
      · exact List.mem_cons_self
      · exact List.mem_cons_of_mem _ (ih later)

theorem alike_written (ws : List Write) (inside : ∀ w ∈ ws, w.off + w.len ≤ g.dev.fileLen) :
    Alike g (g.written ws) :=
  ⟨rfl, rfl, rfl, rfl, rfl, rfl, Device.pwriteAll_fileLen inside⟩

theorem Layout.written (layout : Layout g agLen) {ws : List Write}
    (inside : ∀ w ∈ ws, w.off + w.len ≤ g.dev.fileLen) : Layout (g.written ws) agLen :=
  layout.alike (alike_written ws inside) layout.fits

theorem journalData_run (layout : Layout g agLen) {idx : Nat} {blocks : List Bytes}
    (inside : idx + blocks.length ≤ g.sb.journalLength) :
    journalData idx blocks g = (.ok (), g.written (g.recordData idx blocks)) := by
  induction blocks generalizing idx g with
  | nil => rfl
  | cons data rest ih =>
      rw [List.length_cons] at inside
      have here : idx < g.sb.journalLength := by omega
      have bound := layout.journalOff_bound here
      have last := layout.last_bound
      have next : Layout (g.written [⟨g.journalOff idx, g.sb.blocksize, data⟩]) agLen := by
        apply layout.written
        intro w member
        rw [List.mem_singleton.mp member]
        simp only
        omega
      rw [journalData, bind_ok _ _ (journalWrite_run layout here data),
          ih next (by simp only [written_sb]; omega),
        recordData_written, written_written]
      rfl

theorem writeBlock_run {blk : Nat} (mapped : g.map.resolve blk g.sb.blocksize = some
    (g.blockOff blk))
    (data : Bytes) : writeBlock blk data g =
      (.ok (), g.written [⟨g.blockOff blk, g.sb.blocksize, data⟩]) := by
  simp only [writeBlock, resolve, bind_run, get_run, mapped, pure_run, pwrite_run]

theorem applyBlocks_run {blocks : List (Nat × Bytes)}
    (mapped : ∀ b ∈ blocks, g.map.resolve b.1 g.sb.blocksize = some (g.blockOff b.1)) :
    applyBlocks blocks g = (.ok (), g.written (g.inPlace blocks)) := by
  induction blocks generalizing g with
  | nil => rfl
  | cons b rest ih =>
      have first := writeBlock_run (mapped b List.mem_cons_self) b.2
      rw [applyBlocks, bind_ok _ _ first, ih, written_written]
      · rfl
      · intro b' member
        exact mapped b' (List.mem_cons_of_mem _ member)

theorem writeSuperblock_run [Crc32c] (layout : Layout g agLen) (room : g.sb.gen + 1 < 2 ^ 64) :
    let sb := { g.sb with gen := g.sb.gen + 1 }
    writeSuperblock g = (.ok (), { g with sb }.written (g.superblockWrites agLen sb)) := by
  have backup := layout.backupOff
  simp only [writeSuperblock, bind_run, get_run, ite_run, if_neg (Nat.not_le.mpr room), modify_run,
    pwrite_run, backup, written_written]
  rfl

theorem recordPos_bound {t : Txn} (ok : Recordable g t) :
    g.recordPos t + (t.blocks.length + 2) ≤ g.sb.journalLength := by
  have length := ok.length
  unfold recordPos
  split <;> omega

theorem mem_recordWrites [Crc32c] {t : Txn} {w : Write} (member : w ∈ g.recordWrites t)
    (ok : Recordable g t) :
    ∃ i < g.sb.journalLength,
      (g.recordPos t ≤ i ∧ i < g.recordPos t + (t.blocks.length + 2)) ∧
      w.off = g.journalOff i ∧ w.len = g.sb.blocksize := by
  have bound := recordPos_bound ok
  rcases List.mem_cons.mp member with rfl | later
  · exact ⟨g.recordPos t, by omega, by omega, rfl, rfl⟩
  · rcases List.mem_append.mp later with data | commit
    · obtain ⟨i, low, high, off, len⟩ := mem_recordData data
      rw [List.length_map] at high
      exact ⟨i, by omega, by omega, off, len⟩
    · rw [List.mem_singleton.mp commit]
      exact ⟨g.recordPos t + t.blocks.length + 1, by omega, by omega, rfl, rfl⟩

theorem mem_inPlace {blocks : List (Nat × Bytes)} {w : Write} (member : w ∈ g.inPlace blocks) :
    ∃ b ∈ blocks, w = ⟨g.blockOff b.1, g.sb.blocksize, b.2⟩ := by
  obtain ⟨b, inside, same⟩ := List.mem_map.mp member
  exact ⟨b, inside, same.symm⟩

theorem Layout.synced (layout : Layout g agLen) : Layout g.synced agLen :=
  layout.alike ⟨rfl, rfl, rfl, rfl, rfl, rfl, rfl⟩ layout.fits

theorem Layout.recordWrites_inside [Crc32c] (layout : Layout g agLen) {t : Txn}
    (ok : Recordable g t) : ∀ w ∈ g.recordWrites t, w.off + w.len ≤ g.dev.fileLen := by
  intro w member
  obtain ⟨i, inside, _, off, len⟩ := mem_recordWrites member ok
  have bound := layout.journalOff_bound inside
  have last := layout.last_bound
  omega

theorem Recordable.inPlace_inside {t : Txn} (ok : Recordable g t) :
    ∀ w ∈ g.inPlace t.blocks, w.off + w.len ≤ g.dev.fileLen := by
  intro w member
  obtain ⟨b, inside, rfl⟩ := mem_inPlace member
  exact (ok.home b inside).device

/-- The state after journaling and applying `t`, before the superblock moves on. -/
def applied [Crc32c] (g : Gofs) (t : Txn) : Gofs :=
  ((g.written (g.recordWrites t)).synced.written (g.inPlace t.blocks)).synced

/-- The state after a commit. -/
def committed [Crc32c] (g : Gofs) (agLen : Nat) (t : Txn) : Gofs :=
  { g.applied t with sb := g.checkpoint t }.written (g.superblockWrites agLen (g.checkpoint t))

theorem Layout.applied [Crc32c] (layout : Layout g agLen) {t : Txn} (ok : Recordable g t) :
    Layout (g.applied t) agLen := by
  have record := (layout.written (layout.recordWrites_inside ok)).synced
  apply (record.written _).synced
  intro w member
  have same : (g.written (g.recordWrites t)).synced.dev.fileLen = g.dev.fileLen :=
    Device.pwriteAll_fileLen (layout.recordWrites_inside ok)
  rw [same]
  exact ok.inPlace_inside w member

theorem record_run [Crc32c] (layout : Layout g agLen) {t : Txn} (ok : Recordable g t) :
    let pos := g.recordPos t
    let desc := descBlock g.sb.blocksize g.sb.journalSeq t.targets
    let blocks := t.blocks.map Prod.snd
    let com := commitBlock g.sb.blocksize g.sb.journalSeq (txnCsum g.sb.blocksize desc blocks)
    ∃ g₁ g₂, journalWrite pos desc g = (.ok (), g₁) ∧
      journalData (pos + 1) blocks g₁ = (.ok (), g₂) ∧
      journalWrite (pos + (t.blocks.length + 2) - 1) com g₂ =
        (.ok (), g.written (g.recordWrites t)) := by
  intro pos desc blocks com
  have bound := recordPos_bound ok
  have inside := layout.recordWrites_inside ok
  have first := journalWrite_run layout (show pos < g.sb.journalLength by omega) desc
  have layout₁ : Layout (g.written [⟨g.journalOff pos, g.sb.blocksize, desc⟩]) agLen := by
    apply layout.written
    intro w member
    rw [List.mem_singleton.mp member]
    exact inside _ List.mem_cons_self
  have fits : pos + 1 + blocks.length ≤ g.sb.journalLength := by
    simp only [blocks, List.length_map]
    omega
  have second := journalData_run layout₁ fits
  rw [recordData_written, written_written] at second
  have layout₂ : Layout (g.written
      (⟨g.journalOff pos, g.sb.blocksize, desc⟩ :: g.recordData (pos + 1) blocks)) agLen := by
    apply layout.written
    intro w member
    apply inside
    rcases List.mem_cons.mp member with rfl | data
    · exact List.mem_cons_self
    · exact List.mem_cons_of_mem _ (List.mem_append_left _ data)
  have final : pos + t.blocks.length + 1 < g.sb.journalLength := by omega
  have third := journalWrite_run layout₂ final com
  rw [written_written] at third
  exact ⟨_, _, first, second, third⟩

theorem Layout.checkpoint_fits (layout : Layout g agLen) (t : Txn) (gen : g.sb.gen + 1 < 2 ^ 64)
    (seq : g.sb.journalSeq + 1 < 2 ^ 64) : (g.checkpoint t).Fits := by
  have length := layout.fits.journalLength
  have head : (g.checkpoint t).journalHead < 2 ^ 64 := by
    simp only [checkpoint]
    split <;> omega
  exact { layout.fits with gen, journalSeq := seq, journalHead := head }

theorem commit_run [Crc32c] (layout : Layout g agLen) {t : Txn} (ok : Recordable g t)
    (gen : g.sb.gen + 1 < 2 ^ 64) (seq : g.sb.journalSeq + 1 < 2 ^ 64) :
    commit t g = (.ok (), g.committed agLen t) := by
  have empty : t.isEmpty = false := by simpa [Txn.isEmpty] using ok.nonempty
  obtain ⟨g₁, g₂, desc, data, com⟩ := record_run layout ok
  have pos : (if g.sb.journalHead + (t.blocks.length + 2) > g.sb.journalLength then 0
    else g.sb.journalHead) = g.recordPos t := rfl
  have inPlace : applyBlocks t.blocks (g.written (g.recordWrites t)).synced =
      (.ok (), (g.written (g.recordWrites t)).synced.written (g.inPlace t.blocks)) := by
    have run := applyBlocks_run (g := (g.written (g.recordWrites t)).synced)
      fun b member => (ok.home b member).mapped
    exact run
  have layout₁ : Layout { g.applied t with sb := { g.checkpoint t with gen := g.sb.gen } } agLen :=
    (layout.applied ok).alike ⟨rfl, rfl, rfl, rfl, rfl, rfl, rfl⟩
      { layout.checkpoint_fits t gen seq with gen := layout.fits.gen }
  have last := writeSuperblock_run layout₁ gen
  simp only [commit, empty, Bool.false_eq_true, if_false, bind_run, get_run, ite_run, pos, desc,
      data,
    com, inPlace, sync_run, modify_run, if_neg (Nat.not_lt.mpr ok.targets),
    if_neg (Nat.not_lt.mpr ok.length), if_neg (Nat.not_le.mpr seq)]
  exact last

theorem superblockWrites_inside [Crc32c] (layout : Layout g agLen) (sb : Superblock) :
    ∀ w ∈ g.superblockWrites agLen sb, w.off + w.len ≤ g.dev.fileLen := by
  have last := layout.last_bound
  have size := layout.blocksize
  intro w member
  have len : w.len = SB_SIZE ∧ w.off ≤ (agLen - 1) * g.sb.blocksize := by
    simp only [superblockWrites, List.mem_cons, List.not_mem_nil, or_false] at member
    rcases member with rfl | rfl
    · exact ⟨rfl, Nat.zero_le _⟩
    · exact ⟨rfl, Nat.le_refl _⟩
  have high := len.2
  rw [len.1, SB_SIZE]
  omega

theorem alike_committed [Crc32c] (layout : Layout g agLen) {t : Txn} (ok : Recordable g t) :
    Alike g (g.committed agLen t) := by
  have record : Alike g (g.written (g.recordWrites t)) :=
    alike_written _ (layout.recordWrites_inside ok)
  have applied : Alike g (g.applied t) := by
    have inPlace := alike_written (g := (g.written (g.recordWrites t)).synced)
      (g.inPlace t.blocks) (by
        intro w member
        have same : (g.written (g.recordWrites t)).synced.dev.fileLen = g.dev.fileLen :=
          record.fileLen
        rw [same]
        exact ok.inPlace_inside w member)
    exact ⟨rfl, rfl, rfl, rfl, rfl, rfl, inPlace.fileLen.trans record.fileLen⟩
  have copies := alike_written (g := { g.applied t with sb := g.checkpoint t })
    (g.superblockWrites agLen (g.checkpoint t)) (by
      intro w member
      have same : (g.applied t).dev.fileLen = g.dev.fileLen := applied.fileLen
      simp only [same]
      exact superblockWrites_inside layout _ w member)
  exact ⟨rfl, rfl, rfl, rfl, rfl, rfl, copies.fileLen.trans applied.fileLen⟩

end Gofs

end FiveFs
