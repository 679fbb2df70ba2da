import FiveFs.Alloc
import FiveFs.Codec

/-! What an operation under construction sees: the transaction laid over the device. -/

namespace FiveFs

open Buffer Prog

namespace Txn

theorem lookup_cons (blk k : Nat) (d : Bytes) (rest : List (Nat × Bytes)) :
    ((k, d) :: rest).lookup blk = if blk = k then some d else rest.lookup blk := by
  rw [List.lookup_cons]
  by_cases here : blk = k
  · rw [beq_iff_eq.mpr here, if_pos here]
  · rw [beq_eq_false_iff_ne.mpr here, if_neg here]

theorem find_insert (t : Txn) (blk blk' : Nat) (data : Bytes) :
    (t.insert blk data).find blk' = if blk' = blk then some data else t.find blk' := by
  obtain ⟨blocks⟩ := t
  show (insertBlock blk data blocks).lookup blk' = if blk' = blk then some data else blocks.lookup
      blk'
  induction blocks with
  | nil => rw [insertBlock, lookup_cons]
  | cons entry rest ih =>
      obtain ⟨k, d⟩ := entry
      rw [insertBlock]
      split
      · rw [lookup_cons]
      · split
        · rename_i same
          subst same
          simp only [lookup_cons]
          split <;> rfl
        · rename_i other
          rw [lookup_cons, lookup_cons, ih]
          by_cases here : blk' = k
          · rw [if_pos here, if_pos here, if_neg (here ▸ Ne.symm other)]
          · rw [if_neg here, if_neg here]

end Txn

namespace Work

/-- The contents of a block as read through the transaction. -/
def view (w : Work) (blk : Nat) : Bytes :=
  match w.t.find blk with
  | some b => b
  | none =>
      match w.fs.map.resolve blk w.blocksize with
      | some off => clip w.blocksize (drop off w.fs.dev.bytes)
      | none => zeros

/-- The AG map leads to a whole block of the device file. -/
def Mapped (w : Work) (blk : Nat) : Prop :=
  ∃ off, w.fs.map.resolve blk w.blocksize = some off ∧ off + w.blocksize ≤ w.fs.dev.fileLen

def put (w : Work) (blk : Nat) (data : Bytes) : Work :=
  { w with t := w.t.insert blk (clip w.blocksize data) }

def rehint (w : Work) (hints : Nat → Option (Nat × Nat)) : Work :=
  { w with fs := { w.fs with hints } }

/-- The states differ in the transaction, the block counters and the scan hints alone. -/
structure Kin (w w' : Work) : Prop where
  dev : w'.fs.dev = w.fs.dev
  map : w'.fs.map = w.fs.map
  sb : w'.fs.sb = { w.fs.sb with
    freeBlocks := w'.fs.sb.freeBlocks
    rsvdBlocks := w'.fs.sb.rsvdBlocks
    fullBlocks := w'.fs.sb.fullBlocks }

variable {w w' w'' : Work}

@[simp] theorem put_fs (w : Work) (blk : Nat) (data : Bytes) : (w.put blk data).fs = w.fs := rfl

@[simp] theorem put_blocksize (w : Work) (blk : Nat) (data : Bytes) :
    (w.put blk data).blocksize = w.blocksize := rfl

@[simp] theorem view_put (w : Work) (blk : Nat) (data : Bytes) :
    (w.put blk data).view = Function.update w.view blk (clip w.blocksize data) := by
  funext blk'
  simp only [view, put, Txn.find_insert]
  by_cases here : blk' = blk
  · simp [here]
  · simp only [here, ↓reduceIte, Function.update_of_ne here]
    rfl

@[simp] theorem view_rehint (w : Work) (hints : Nat → Option (Nat × Nat)) :
    (w.rehint hints).view = w.view := rfl

@[simp] theorem view_recount (w : Work) (free rsvd full : Nat) :
    (w.recount free rsvd full).view = w.view := rfl

theorem put_congr (w : Work) (blk : Nat) {data data' : Bytes}
    (same : ∀ i < w.blocksize, data i = data' i) : w.put blk data = w.put blk data' := by
  rw [put, put, clip_congr same]

namespace Kin

theorem refl (w : Work) : Kin w w := ⟨rfl, rfl, rfl⟩

theorem trans (h : Kin w w') (h' : Kin w' w'') : Kin w w'' where
  dev := h'.dev.trans h.dev
  map := h'.map.trans h.map
  sb := by rw [h'.sb, h.sb]

theorem put (h : Kin w w') (blk : Nat) (data : Bytes) : Kin w (w'.put blk data) :=
  ⟨h.dev, h.map, h.sb⟩

theorem rehint (h : Kin w w') (hints : Nat → Option (Nat × Nat)) : Kin w (w'.rehint hints) :=
  ⟨h.dev, h.map, h.sb⟩

theorem recount (h : Kin w w') (free rsvd full : Nat) : Kin w (w'.recount free rsvd full) := by
  refine ⟨h.dev, h.map, ?_⟩
  rw [Work.recount]
  dsimp only
  rw [h.sb]

theorem blocksize (h : Kin w w') : w'.blocksize = w.blocksize := by
  rw [Work.blocksize, h.sb]
  rfl

theorem inodesize (h : Kin w w') : w'.fs.sb.inodesize = w.fs.sb.inodesize := by rw [h.sb]

theorem mapped (h : Kin w w') {blk : Nat} (mapped : w.Mapped blk) : w'.Mapped blk := by
  rw [Mapped, h.blocksize, h.map, h.dev]
  exact mapped

end Kin

@[simp] theorem mapped_put {blk blk' : Nat} {data : Bytes} :
    (w.put blk data).Mapped blk' ↔ w.Mapped blk' := Iff.rfl

theorem txnRead_run {blk : Nat} (mapped : w.Mapped blk) :
    txnRead blk w = (.ok (w.view blk), w) := by
  obtain ⟨off, found, inside⟩ := mapped
  rw [txnRead, bind_ok _ _ (get_run (s := w)), view]
  cases hit : w.t.find blk with
  | some b => rfl
  | none =>
      have read : Gofs.readBlock blk w.fs =
          (.ok (clip w.blocksize (drop off w.fs.dev.bytes)), w.fs) := by
        have resolved : Gofs.resolve blk w.fs = (.ok off, w.fs) := by
          have here : w.fs.map.resolve blk w.fs.sb.blocksize = some off := found
          rw [Gofs.resolve, bind_ok _ _ (get_run (s := w.fs)), here]
          rfl
        have bytes : w.fs.dev.pread off w.fs.sb.blocksize =
            .ok (clip w.blocksize (drop off w.fs.dev.bytes)) := Device.pread_ok inside
        rw [Gofs.readBlock, bind_ok _ _ (get_run (s := w.fs)), bind_ok _ _ resolved, Gofs.pread,
            bytes]
        rfl
      simp only [found]
      rw [onFs, zoom, read]

theorem txnWrite_run (w : Work) (blk : Nat) (data : Bytes) :
    txnWrite blk data w = (.ok (), w.put blk data) := rfl

end Work

theorem blkSplit_blkAddr (ag : Nat) {l : Nat} (h : l < 2 ^ 32) :
    blkSplit (blkAddr ag l) = (ag, l) := by
  rw [blkSplit, blkAddr, Nat.mul_comm, Nat.mul_add_div (by decide), Nat.mul_add_mod]
  rw [Nat.div_eq_of_lt h, Nat.mod_eq_of_lt h, Nat.add_zero]

theorem blkAddr_inj {ag ag' l l' : Nat} (h : l < 2 ^ 32) (h' : l' < 2 ^ 32) :
    blkAddr ag l = blkAddr ag' l' ↔ ag = ag' ∧ l = l' := by
  constructor
  · intro equal
    have split := congrArg blkSplit equal
    rw [blkSplit_blkAddr ag h, blkSplit_blkAddr ag' h'] at split
    exact ⟨congrArg Prod.fst split, congrArg Prod.snd split⟩
  · rintro ⟨rfl, rfl⟩
    rfl

end FiveFs
