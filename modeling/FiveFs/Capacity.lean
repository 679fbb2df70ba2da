import FiveFs.Slots
import FiveFs.Forest
import FiveFs.Mapping
import FiveFs.Address

/-! How large a new AG may be: its blocks and its slots are numbered in 32 bits. -/

namespace FiveFs

open Buffer Prog

namespace Gofs

/-- The cells of the metadata of a new AG. -/
def newHeadCells (bs len : Nat) : Nat := (1 + (rtGeometry len bs).2 + CELL_BLOCKS - 1) / CELL_BLOCKS

/-- A block of a new AG of `len` blocks that an inode slot block can be made of: its cell is FREE.
-/
def Refinable (bs len l : Nat) : Prop :=
  l < len ∧ cellGet (newAgTable len (rtGeometry len bs).1 (newHeadCells bs len)).1
  (l / CELL_BLOCKS) = CELL_FREE

theorem refinable_iff {bs len l : Nat} (some : 0 < len) : Refinable bs len l ↔
    newHeadCells bs len ≤ l / CELL_BLOCKS ∧ (l / CELL_BLOCKS + 1) * CELL_BLOCKS ≤ len := by
  have some_cell : 0 < cellCount len := by
    rw [cellCount, CELL_BLOCKS]
    omega
  have cells : (rtGeometry len bs).1 = cellCount len := rfl
  have free : (CELL_RSVD = CELL_FREE) = False := by decide
  rw [Refinable, cells, Mkfs.cellGet_newAgTable _ some_cell]
  rw [cellCount, CELL_BLOCKS] at *
  split
  · rename_i reserved
    simp only [free, and_false, false_iff]
    omega
  · simp only [and_true]
    omega

/-- A new AG covers its region, and every slot in it has a number of 32 bits that leads back to it.
-/
structure Exact (g g' : Gofs) (devOffset bytes ag : Nat) : Prop where
  covers : ∃ e, g'.map.entries = g.map.entries ++ [e] ∧ e.length = bytes / g.sb.blocksize ∧
    e.segs = [⟨0, bytes / g.sb.blocksize, devOffset⟩]
  numbers : ∀ l s, Refinable g.sb.blocksize (bytes / g.sb.blocksize % 2 ^ 32) l →
      s < Work.slotsPerBlock g.sb →
    ∀ w, ∃ slot, Work.slotNumber l (Work.slotsPerBlock g.sb) s w = (.ok slot, w) ∧
      g'.LeadsTo (inoAddr ag slot) ag l s

theorem slotNumber_run {l slots s : Nat} (fits : l * slots + s < 2 ^ 32) (w : Work) :
    Work.slotNumber l slots s w = (.ok (l * slots + s), w) := by
  rw [Work.slotNumber, ite_run, if_neg (by omega), ite_run, if_neg (by omega)]
  rfl

theorem slotNumber_fits {l slots s slot : Nat} {w w' : Work}
    (run : Work.slotNumber l slots s w = (.ok slot, w')) :
    l * slots + s < 2 ^ 32 := by
  by_contra large
  rw [Work.slotNumber, ite_run] at run
  split at run
  · cases run
  · rw [ite_run, if_pos (Nat.le_of_not_lt large)] at run
    cases run

variable [Crc32c] {g : Gofs}

theorem addAg_entry (g : Gofs) (devOffset bytes : Nat) : wp (addAg devOffset bytes) (fun _ g' =>
    1024 ≤ bytes / g.sb.blocksize % 2 ^ 32 ∧ g'.map.entries = g.map.entries ++ [⟨AGF_PRESENT,
      bytes / g.sb.blocksize % 2 ^ 32, [⟨0, bytes / g.sb.blocksize % 2 ^ 32, devOffset⟩]⟩] ∧
    g'.sb.blocksize = g.sb.blocksize ∧ g'.sb.inodesize = g.sb.inodesize) Fails g := by
  rw [addAg, wp_bind, wp_get]
  dsimp only
  rw [wp_ite]
  split
  · trivial
  · rw [wp_ite]
    split
    · trivial
    · rename_i large
      rw [wp_ite]
      split
      · trivial
      · rw [wp_bind]
        refine wp_mono (subtract_wp _ _ g) ?_ fun _ _ _ => trivial
        rintro cells _ ⟨rfl, -, -⟩
        rw [wp_bind]
        refine wp_mono (subtract_wp _ _ _) ?_ fun _ _ _ => trivial
        rintro rsvd g' ⟨rfl, -, -⟩
        rw [wp_bind, pwrite, wp_modify, wp_bind, pwrite, wp_modify, wp_bind, sync, wp_modify,
            wp_bind]
        refine wp_mono (subtract_wp _ _ _) ?_ fun _ _ _ => trivial
        rintro more g₁ ⟨rfl, -, -⟩
        rw [wp_bind]
        refine wp_mono (increase_wp _ _ _ _) ?_ fun _ _ _ => trivial
        rintro nextAg _ ⟨rfl, -, -⟩
        rw [wp_bind]
        refine wp_mono (increase_wp _ _ _ _) ?_ fun _ _ _ => trivial
        rintro free _ ⟨rfl, -, -⟩
        rw [wp_bind]
        refine wp_mono (increase_wp _ _ _ _) ?_ fun _ _ _ => trivial
        rintro reserved _ ⟨rfl, -, -⟩
        rw [wp_bind, wp_modify, wp_bind]
        refine wp_mono (persistMap_steady _) ?_ fun _ _ _ => trivial
        rintro _ g'' ⟨steady, -⟩
        exact ⟨Nat.le_of_not_lt large, steady.entries, steady.blocksize, steady.inodesize⟩

omit [Crc32c] in
theorem newHeadCells_lt {bs len : Nat} (large : 2048 ≤ bs) (whole : 1024 ≤ len) :
    newHeadCells bs len < len / CELL_BLOCKS := by
  have quot : ∀ x, (x + bs - 1) / bs ≤ x / 2048 + 1 := by
    intro x
    calc
      _ ≤ (x + bs) / bs := Nat.div_le_div_right (Nat.sub_le _ _)
      _ = x / bs + 1 := Nat.add_div_right x (by omega)
      _ ≤ x / 2048 + 1 := Nat.add_le_add_right (Nat.div_le_div_left large (by decide)) 1
  have table := quot (((len + CELL_BLOCKS - 1) / CELL_BLOCKS + 3) / 4 + (len + CELL_BLOCKS - 1) /
      CELL_BLOCKS * 6)
  have blocks : (rtGeometry len bs).2 ≤ _ := table
  rw [newHeadCells]
  rw [CELL_BLOCKS] at *
  omega

/-- A new AG is exact if and only if its blocks, and the slots of its whole cells, are numbered
below `2 ^ 32`. -/
theorem add_ag_exact_iff {g' : Gofs} {devOffset bytes ag : Nat} (sized : g.sb.Sized)
    (run : addAg devOffset bytes g = (.ok ag, g')) : g.Exact g' devOffset bytes ag ↔
      bytes / g.sb.blocksize < 2 ^ 32 ∧
        bytes / g.sb.blocksize / CELL_BLOCKS * CELL_BLOCKS * Work.slotsPerBlock g.sb ≤ 2 ^ 32 := by
  obtain ⟨whole, entries, blocksize, inodesize⟩ := wp_ok (addAg_entry g devOffset bytes) run
  have positive := sized.slots_pos
  have slots : Work.slotsPerBlock g'.sb = Work.slotsPerBlock g.sb := by
    rw [Work.slotsPerBlock, blocksize, inodesize]
    rfl
  generalize length : bytes / g.sb.blocksize = len at *
  constructor
  · intro exact
    have fits : len < 2 ^ 32 := by
      obtain ⟨e, appended, covers, -⟩ := exact.covers
      rw [entries] at appended
      cases List.append_cancel_left appended
      rw [length] at covers
      exact covers ▸ Nat.mod_lt _ (by decide)
    refine ⟨fits, ?_⟩
    rw [Nat.mod_eq_of_lt fits] at whole
    -- the last slot of the last whole cell
    have last : Refinable g.sb.blocksize len (len / CELL_BLOCKS * CELL_BLOCKS - 1) := by
      have head := newHeadCells_lt sized.large whole
      rw [refinable_iff (by omega)]
      rw [CELL_BLOCKS] at *
      omega
    have numbers := exact.numbers (len / CELL_BLOCKS * CELL_BLOCKS - 1)
        (Work.slotsPerBlock g.sb - 1)
    rw [length, Nat.mod_eq_of_lt fits] at numbers
    obtain ⟨slot, number, -⟩ := numbers last (by omega) { fs := g }
    have bound := slotNumber_fits number
    have cells : 0 < len / CELL_BLOCKS * CELL_BLOCKS := by
      rw [CELL_BLOCKS]
      omega
    calc
      _ = (len / CELL_BLOCKS * CELL_BLOCKS - 1 + 1) * Work.slotsPerBlock g.sb := by
        rw [Nat.sub_add_cancel cells]
      _ = (len / CELL_BLOCKS * CELL_BLOCKS - 1) * Work.slotsPerBlock g.sb +
          Work.slotsPerBlock g.sb := Nat.succ_mul _ _
      _ ≤ 2 ^ 32 := by omega
  · rintro ⟨fits, room⟩
    rw [Nat.mod_eq_of_lt fits] at whole entries
    refine ⟨⟨_, entries, length.symm, ?_⟩, fun l s refinable slot w => ?_⟩
    · rw [length]
    · rw [length, Nat.mod_eq_of_lt fits, refinable_iff (by omega)] at refinable
      have inside : l + 1 ≤ len / CELL_BLOCKS * CELL_BLOCKS := by
        have cell := refinable.2
        rw [CELL_BLOCKS] at *
        omega
      have below : l * Work.slotsPerBlock g.sb + s < 2 ^ 32 := by
        have step := Nat.mul_le_mul_right (Work.slotsPerBlock g.sb) inside
        rw [Nat.succ_mul] at step
        omega
      refine ⟨_, slotNumber_run below w, ?_⟩
      rw [← slots] at below slot ⊢
      exact leadsTo_of_lt (sized.congr blocksize inodesize) slot below

end Gofs

namespace Work

variable [Crc32c] {w : Work} {ag : Nat}

end Work

/-- AG 0 of 4 MiB in blocks of 2 KiB. -/
def baseVolume : Gofs where
  dev := ⟨zeros, 4194304, 4194304, []⟩
  sb := {
    blocksize := 2048
    inodesize := 256
    agmapOffset := 8192
    agmapLength := 65536
    nextAg := 1 }
  map := ⟨1, [⟨AGF_PRESENT ||| AGF_IMMOVABLE, 2048, [⟨0, 2048, 0⟩]⟩]⟩

theorem baseVolume_sized : baseVolume.sb.Sized := by
  constructor <;> decide

theorem vast_added : ∃ ag g',
    @Gofs.addAg castagnoli 4194304 8796095119360 baseVolume = (.ok ag, g') := by
  have done : (match (@Gofs.addAg castagnoli 4194304 8796095119360 baseVolume).1 with
      | .ok _ => true
      | .error _ => false) = true := by decide +kernel
  rcases run : @Gofs.addAg castagnoli 4194304 8796095119360 baseVolume with ⟨e | ag, g'⟩
  · rw [run] at done
    cases done
  · exact ⟨ag, g', rfl⟩

/-- The AG that is added for it has 1024 blocks. -/
theorem add_ag_not_exact : ¬ ∀ (g g' : Gofs) (devOffset bytes ag : Nat), g.sb.Sized →
    bytes < 2 ^ 64 →
    @Gofs.addAg castagnoli devOffset bytes g = (.ok ag, g') → g.Exact g' devOffset bytes ag := by
  let crc := castagnoli
  intro claim
  obtain ⟨ag, g', run⟩ := vast_added
  obtain ⟨e, appended, covers, -⟩ := (claim baseVolume g' 4194304 8796095119360 ag baseVolume_sized
      (by decide) run).covers
  obtain ⟨-, entries, -⟩ := wp_ok (Gofs.addAg_entry baseVolume 4194304 8796095119360) run
  rw [entries] at appended
  cases List.append_cancel_left appended
  exact absurd covers (by decide)

/-- The same region, as the condition judges it. -/
theorem add_ag_exact_vast : ∃ ag g', @Gofs.addAg castagnoli 4194304 8796095119360
    baseVolume = (.ok ag, g') ∧
    (baseVolume.Exact g' 4194304 8796095119360 ag ↔ 8796095119360 / 2048 < 2 ^ 32 ∧
      8796095119360 / 2048 / CELL_BLOCKS * CELL_BLOCKS * Work.slotsPerBlock baseVolume.sb ≤ 2 ^
      32) := by
  let crc := castagnoli
  obtain ⟨ag, g', run⟩ := vast_added
  exact ⟨ag, g', run, Gofs.add_ag_exact_iff baseVolume_sized run⟩

end FiveFs
