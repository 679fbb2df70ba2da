import FiveFs.Inode
import FiveFs.View

/-! Inode slots: where the inode of a number lies, and how it is read and written there. -/

namespace FiveFs

open Buffer Prog

namespace Gofs

/-- Block and byte offset of an inode. -/
def inodeBlockOff (g : Gofs) (ino : Nat) : Nat × Nat :=
  let slots := g.sb.blocksize / g.sb.inodesize
  (blkAddr (blkSplit ino).1 ((blkSplit ino).2 / slots), (blkSplit ino).2 % slots * g.sb.inodesize)

/-- Block and byte offset of an inode, by its byte offset in the AG. -/
def inodeByteOff (g : Gofs) (ino : Nat) : Nat × Nat :=
  let byteOff := (blkSplit ino).2 * g.sb.inodesize
  (blkAddr (blkSplit ino).1 (byteOff / g.sb.blocksize % 2 ^ 32), byteOff % g.sb.blocksize)

def inodePhys (ino : Nat) : Prog Gofs Nat := do
  let (blk, off) := (← get).inodeByteOff ino
  return (← resolve blk) + off

def readInode [Crc32c] (ino : Nat) : Prog Gofs Inode := do
  let off ← inodePhys ino
  let buf ← pread off INODE_SIZE
  match Inode.parse buf INODE_SIZE with
  | .ok i => return i
  | .error e => bail s!"inode {hex ino}: {e}"

end Gofs

namespace Work

/-- `buf[off..off + INODE_SIZE]` of a block. -/
def inodeRange (off : Nat) : Prog Work Unit := do
  if off + INODE_SIZE > (← get).blocksize then panicWith "range end index out of range for slice"
  else return ()

def readInodeTxn [Crc32c] (ino : Nat) : Prog Work Inode := do
  let (blk, off) := (← get).fs.inodeBlockOff ino
  let buf ← txnRead blk
  inodeRange off
  match Inode.parse (drop off buf) INODE_SIZE with
  | .ok i => return i
  | .error e => bail s!"inode {hex ino}: {e}"

def writeInodeTxn [Crc32c] (ino : Nat) (inode : Inode) : Prog Work Unit := do
  let (blk, off) := (← get).fs.inodeBlockOff ino
  let buf ← txnRead blk
  inodeRange off
  txnWrite blk (copyAt buf off INODE_SIZE inode.toBytes)

end Work

/-- The sizes that mkfs accepts. -/
structure Superblock.Sized (sb : Superblock) : Prop where
  power : isPowerOfTwo sb.blocksize = true
  large : 2048 ≤ sb.blocksize
  inodes : isPowerOfTwo sb.inodesize = true
  small : 128 ≤ sb.inodesize
  whole : sb.inodesize ≤ sb.blocksize
  fan : sb.blocksize / sb.inodesize ≤ ALLOC_FANOUT

namespace Superblock.Sized

variable {sb sb' : Superblock}

theorem congr (sized : sb.Sized) (blocks : sb'.blocksize = sb.blocksize)
    (inodes : sb'.inodesize = sb.inodesize) :
    sb'.Sized where
  power := blocks ▸ sized.power
  large := blocks ▸ sized.large
  inodes := inodes ▸ sized.inodes
  small := inodes ▸ sized.small
  whole := blocks ▸ inodes ▸ sized.whole
  fan := blocks ▸ inodes ▸ sized.fan

theorem slots_mul (sized : sb.Sized) : Work.slotsPerBlock sb * sb.inodesize = sb.blocksize := by
  obtain ⟨k, -, block⟩ := isPowerOfTwo_iff.mp sized.power
  obtain ⟨j, -, inode⟩ := isPowerOfTwo_iff.mp sized.inodes
  apply Nat.div_mul_cancel
  rw [block, inode]
  have le := sized.whole
  rw [block, inode] at le
  exact Nat.pow_dvd_pow 2 ((Nat.pow_le_pow_iff_right (by decide)).mp le)

theorem slots_pos (sized : sb.Sized) : 0 < Work.slotsPerBlock sb := by
  have small := sized.small
  exact Nat.div_pos sized.whole (by omega)

end Superblock.Sized

/-- The inode number leads to slot `s` of block `l` of AG `ag`, in each of the ways in which it is
taken apart. -/
structure Gofs.LeadsTo (g : Gofs) (ino ag l s : Nat) : Prop where
  group : (blkSplit ino).1 = ag
  block : (blkSplit ino).2 / Work.slotsPerBlock g.sb = l
  slot : (blkSplit ino).2 % Work.slotsPerBlock g.sb = s
  blockOff : g.inodeBlockOff ino = (blkAddr ag l, s * g.sb.inodesize)
  byteOff : g.inodeByteOff ino = (blkAddr ag l, s * g.sb.inodesize)

variable {g : Gofs} {ino ag l s : Nat}

theorem Gofs.leadsTo_of_lt (sized : g.sb.Sized) (slot : s < Work.slotsPerBlock g.sb)
    (fits : l * Work.slotsPerBlock g.sb + s < 2 ^ 32) :
    g.LeadsTo (inoAddr ag (l * Work.slotsPerBlock g.sb + s)) ag l s := by
  have positive := sized.slots_pos
  have fill := sized.slots_mul
  have split : blkSplit (inoAddr ag (l * Work.slotsPerBlock g.sb + s)) =
      (ag, l * Work.slotsPerBlock g.sb + s) :=
    blkSplit_blkAddr ag fits
  have block : (l * Work.slotsPerBlock g.sb + s) / Work.slotsPerBlock g.sb = l := by
    rw [Nat.mul_comm, Nat.mul_add_div positive, Nat.div_eq_of_lt slot, Nat.add_zero]
  have index : (l * Work.slotsPerBlock g.sb + s) % Work.slotsPerBlock g.sb = s := by
    rw [Nat.mul_comm, Nat.mul_add_mod, Nat.mod_eq_of_lt slot]
  have inside : s * g.sb.inodesize < g.sb.blocksize := by
    have some := sized.small
    rw [← fill]
    exact Nat.mul_lt_mul_of_pos_right slot (by omega)
  have bytes : (l * Work.slotsPerBlock g.sb + s) * g.sb.inodesize =
      g.sb.blocksize * l + s * g.sb.inodesize := by
    rw [Nat.add_mul, Nat.mul_assoc, fill, Nat.mul_comm l]
  have low : l < 2 ^ 32 := by
    have le := Nat.le_mul_of_pos_right l positive
    omega
  refine ⟨?_, ?_, ?_, ?_, ?_⟩
  · rw [split]
  · rw [split]
    exact block
  · rw [split]
    exact index
  · rw [Gofs.inodeBlockOff, split]
    exact congrArg₂ (fun x y => (blkAddr ag x, y * g.sb.inodesize)) block index
  · rw [Gofs.inodeByteOff, split]
    dsimp only
    rw [bytes, Nat.mul_add_div (by omega), Nat.mul_add_mod, Nat.div_eq_of_lt inside,
        Nat.mod_eq_of_lt inside,
      Nat.add_zero, Nat.mod_eq_of_lt low]

theorem Gofs.leadsTo (sized : g.sb.Sized) (ino : Nat) : g.LeadsTo ino (blkSplit ino).1
    ((blkSplit ino).2 / Work.slotsPerBlock g.sb) ((blkSplit ino).2 % Work.slotsPerBlock g.sb) := by
  have low : (blkSplit ino).2 < 2 ^ 32 := Nat.mod_lt _ (by decide)
  have whole := Nat.div_add_mod' (blkSplit ino).2 (Work.slotsPerBlock g.sb)
  have number : inoAddr (blkSplit ino).1 (blkSplit ino).2 = ino := by
    rw [inoAddr, blkAddr, blkSplit]
    omega
  have leads : g.LeadsTo (inoAddr (blkSplit ino).1
      ((blkSplit ino).2 / Work.slotsPerBlock g.sb * Work.slotsPerBlock g.sb +
      (blkSplit ino).2 % Work.slotsPerBlock g.sb)) (blkSplit ino).1
      ((blkSplit ino).2 / Work.slotsPerBlock g.sb)
        ((blkSplit ino).2 % Work.slotsPerBlock g.sb) :=
    Gofs.leadsTo_of_lt sized (Nat.mod_lt (blkSplit ino).2 sized.slots_pos) (by omega)
  rw [whole, number] at leads
  exact leads

theorem Gofs.LeadsTo.unique {ag' l' s' : Nat} (h : g.LeadsTo ino ag l s)
    (h' : g.LeadsTo ino ag' l' s') :
    ag = ag' ∧ l = l' ∧ s = s' :=
  ⟨h.group.symm.trans h'.group, h.block.symm.trans h'.block, h.slot.symm.trans h'.slot⟩

end FiveFs
