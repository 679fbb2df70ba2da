import FiveFs.Lib.Copy
import FiveFs.Mapping

/-! Relocating an AG: the copy runs forward in chunks of 256 blocks, segment by segment. -/

namespace FiveFs

open Buffer Prog

/-- The chunks of the copy loop, from `done` on. -/
def loopChunks (src dst total chunk : Nat) : Nat → Nat → List Chunk
  | 0, _ => []
  | fuel + 1, done =>
      if done < total then
        ⟨src + done, dst + done, min chunk (total - done)⟩ ::
          loopChunks src dst total chunk fuel (done + min chunk (total - done))
      else []

/-- The chunks of the whole move. -/
def segChunks (dest bs : Nat) : List AgSegment → List Chunk
  | [] => []
  | s :: rest =>
      loopChunks s.devOffset (dest + s.agBlock * bs) (s.blocks * bs) (CELL_BLOCKS * bs)
          (s.blocks * bs) 0 ++
        segChunks dest bs rest

section Chunks

variable {src dst total chunk fuel done dest bs : Nat} {c : Chunk} {segs : List AgSegment}

theorem mem_loopChunks (member : c ∈ loopChunks src dst total chunk fuel done) :
    ∃ x, done ≤ x ∧ c.src = src + x ∧ c.dst = dst + x ∧ x + c.len ≤ total := by
  induction fuel generalizing done with
  | zero => cases member
  | succ fuel ih =>
      rw [loopChunks] at member
      split at member
      · rcases List.mem_cons.mp member with rfl | later
        · exact ⟨done, Nat.le_refl _, rfl, rfl, by dsimp only; omega⟩
        · obtain ⟨x, low, atSrc, atDst, inside⟩ := ih later
          exact ⟨x, by omega, atSrc, atDst, inside⟩
      · cases member

theorem loopChunks_apart : (loopChunks src dst total chunk fuel done).Pairwise Chunk.Apart := by
  induction fuel generalizing done with
  | zero => exact List.Pairwise.nil
  | succ fuel ih =>
      rw [loopChunks]
      split
      · refine List.Pairwise.cons (fun d later => ?_) ih
        obtain ⟨x, low, -, atDst, -⟩ := mem_loopChunks later
        left
        dsimp only
        omega
      · exact List.Pairwise.nil

theorem loopChunks_cover (some_bytes : 0 < chunk) {x : Nat} (low : done ≤ x) (high : x < total)
    (enough : total - done ≤ fuel) : ∃ c ∈ loopChunks src dst total chunk fuel done, ∃ k < c.len,
      c.src + k = src + x ∧ c.dst + k = dst + x := by
  induction fuel generalizing done with
  | zero => omega
  | succ fuel ih =>
      rw [loopChunks, if_pos (by omega)]
      by_cases here : x < done + min chunk (total - done)
      · exact ⟨_, List.mem_cons_self,
            x - done, by dsimp only; omega, by dsimp only; omega, by dsimp only; omega⟩
      · have past : done + min chunk (total - done) ≤ x := by omega
        obtain ⟨c, later, k, hk, atSrc, atDst⟩ := ih past (by omega)
        exact ⟨c, List.mem_cons_of_mem _ later, k, hk, atSrc, atDst⟩

theorem mem_segChunks (member : c ∈ segChunks dest bs segs) : ∃ s ∈ segs, ∃ x,
    c.src = s.devOffset + x ∧ c.dst = dest + s.agBlock * bs + x ∧ x + c.len ≤ s.blocks * bs := by
  induction segs with
  | nil => cases member
  | cons s rest ih =>
      rw [segChunks] at member
      rcases List.mem_append.mp member with here | later
      · obtain ⟨x, -, atSrc, atDst, inside⟩ := mem_loopChunks here
        exact ⟨s, List.mem_cons_self, x, atSrc, atDst, inside⟩
      · obtain ⟨t, ht, x, atSrc, atDst, inside⟩ := ih later
        exact ⟨t, List.mem_cons_of_mem _ ht, x, atSrc, atDst, inside⟩

theorem segChunks_cover (dest : Nat) (block : 0 < bs) {s : AgSegment} (hs : s ∈ segs) {x : Nat}
    (inside : x < s.blocks * bs) :
    ∃ c ∈ segChunks dest bs segs, ∃ k < c.len,
      c.src + k = s.devOffset + x ∧ c.dst + k = dest + s.agBlock * bs + x := by
  induction segs with
  | nil => cases hs
  | cons t rest ih =>
      rw [segChunks]
      rcases List.mem_cons.mp hs with rfl | later
      · have large : 0 < CELL_BLOCKS * bs := Nat.mul_pos (by decide) block
        obtain ⟨c, member, k, hk, both⟩ : ∃ c ∈ loopChunks s.devOffset (dest + s.agBlock * bs)
            (s.blocks * bs)
            (CELL_BLOCKS * bs) (s.blocks * bs) 0, ∃ k < c.len,
              c.src + k = s.devOffset + x ∧ c.dst + k = dest + s.agBlock * bs + x :=
          loopChunks_cover large (Nat.zero_le x) inside (Nat.le_refl _)
        exact ⟨c, List.mem_append_left _ member, k, hk, both⟩
      · obtain ⟨c, member, k, hk, both⟩ := ih later
        exact ⟨c, List.mem_append_right _ member, k, hk, both⟩

end Chunks

/-- Two segments map no common block of their AG. -/
def AgSegment.Apart (s t : AgSegment) : Prop := s.agBlock + s.blocks ≤ t.agBlock ∨
    t.agBlock + t.blocks ≤ s.agBlock

/-- The segments map each block of the AG once. -/
structure AgEntry.Tiled (e : AgEntry) : Prop where
  inside : ∀ s ∈ e.segs, s.agBlock + s.blocks ≤ e.length
  covers : ∀ l < e.length, ∃ s ∈ e.segs, s.agBlock ≤ l ∧ l < s.agBlock + s.blocks
  apart : e.segs.Pairwise AgSegment.Apart

theorem AgEntry.tiled_single (flags len off : Nat) :
    (AgEntry.mk flags len [⟨0, len, off⟩]).Tiled := by
  refine ⟨fun s hs => ?_, fun l hl => ⟨_, List.mem_singleton_self _, Nat.zero_le l, ?_⟩,
    List.pairwise_singleton _ _⟩
  · cases List.mem_singleton.mp hs
    exact Nat.le_of_eq (Nat.zero_add _)
  · rw [Nat.zero_add]
    exact hl

theorem segChunks_apart {dest bs : Nat} {segs : List AgSegment}
    (apart : segs.Pairwise AgSegment.Apart) :
    (segChunks dest bs segs).Pairwise Chunk.Apart := by
  induction segs with
  | nil => exact List.Pairwise.nil
  | cons s rest ih =>
      obtain ⟨first, later⟩ := List.pairwise_cons.mp apart
      rw [segChunks]
      refine List.pairwise_append.mpr ⟨loopChunks_apart, ih later, fun c hc d hd => ?_⟩
      obtain ⟨x, -, -, atC, insideC⟩ := mem_loopChunks hc
      obtain ⟨t, ht, y, -, atD, insideD⟩ := mem_segChunks hd
      rcases first t ht with before | behind
      · have rows : (s.agBlock + s.blocks) * bs ≤ t.agBlock * bs := Nat.mul_le_mul_right _ before
        rw [Nat.add_mul] at rows
        left
        omega
      · have rows : (t.agBlock + t.blocks) * bs ≤ s.agBlock * bs := Nat.mul_le_mul_right _ behind
        rw [Nat.add_mul] at rows
        right
        omega

namespace Gofs

/-- What the copy of `cs` leaves. -/
structure Copied (g g' : Gofs) (cs : List Chunk) : Prop where
  sb : g'.sb = g.sb
  map : g'.map = g.map
  bytes : g'.dev.bytes = Chunk.copyAll g.dev.bytes cs
  size : g'.dev.size = g.dev.size
  grows : g.dev.fileLen ≤ g'.dev.fileLen
  inside : ∀ c ∈ cs, c.dst + c.len ≤ g'.dev.fileLen

theorem Copied.nil (g : Gofs) : g.Copied g [] :=
  ⟨rfl, rfl, rfl, rfl, Nat.le_refl _, fun _ h => absurd h List.not_mem_nil⟩

theorem Copied.trans {g g' g'' : Gofs} {cs ds : List Chunk} (h : g.Copied g' cs)
    (h' : g'.Copied g'' ds) :
    g.Copied g'' (cs ++ ds) where
  sb := h'.sb.trans h.sb
  map := h'.map.trans h.map
  bytes := by rw [h'.bytes, h.bytes, Chunk.copyAll_append]
  size := h'.size.trans h.size
  grows := Nat.le_trans h.grows h'.grows
  inside := fun c member => (List.mem_append.mp member).elim
    (fun first => Nat.le_trans (h.inside c first) h'.grows) (h'.inside c)

theorem pread_read (off n : Nat) (g : Gofs) : wp (pread off n)
    (fun buf g' => g' = g ∧ buf = clip n (drop off g.dev.bytes)) Fails g := by
  unfold wp
  split
  · rename_i buf g' run
    rw [pread] at run
    obtain ⟨value, same⟩ := Prod.mk.inj run
    refine ⟨same.symm, ?_⟩
    by_cases inside : off + n ≤ g.dev.fileLen
    · rw [Device.pread_ok inside] at value
      cases value
      rfl
    · rw [Device.pread, if_neg inside] at value
      cases value
  · trivial

theorem pwrite_copied (g : Gofs) (src dst n : Nat) :
    g.Copied { g with dev := g.dev.pwrite dst n (clip n (drop src g.dev.bytes)) }
    [⟨src, dst, n⟩] := by
  refine ⟨rfl, rfl, ?_, rfl, Device.pwrite_grows _ _ _ _, fun c only => ?_⟩
  · funext i
    show copyAt g.dev.bytes dst n _ i = Chunk.copy g.dev.bytes ⟨src, dst, n⟩ i
    by_cases inside : dst ≤ i ∧ i < dst + n
    · obtain ⟨k, rfl⟩ := Nat.exists_eq_add_of_le inside.1
      have short : k < n := by omega
      have moved := Chunk.copy_at (m := g.dev.bytes) (c := ⟨src, dst, n⟩) short
      rw [moved, copyAt_of_mem inside, Nat.add_sub_cancel_left, clip_of_lt _ short]
      rfl
    · rw [copyAt_of_not_mem (by omega), Chunk.copy_of_not_mem (by dsimp only; omega)]
  · cases List.mem_singleton.mp only
    exact Nat.le_max_right _ _

theorem copyLoop_copied (src dst total chunk fuel done : Nat) (g : Gofs) :
    wp (copyLoop src dst total chunk fuel done)
      (fun _ g' => g.Copied g' (loopChunks src dst total chunk fuel done)) Fails g := by
  induction fuel generalizing done g with
  | zero => exact .nil g
  | succ fuel ih =>
      rw [copyLoop, loopChunks, wp_ite]
      split
      · dsimp only
        rw [wp_bind]
        apply wp_mono (pread_read _ _ g)
        · rintro buf g' ⟨rfl, rfl⟩
          rw [wp_bind, pwrite, wp_modify]
          apply wp_mono (ih _ _)
          · exact fun _ g'' copied => (pwrite_copied g' _ _ _).trans copied
          · exact fun _ _ _ => trivial
        · exact fun _ _ _ => trivial
      · exact .nil g

theorem copySegs_copied (dest bs : Nat) (segs : List AgSegment) (g : Gofs) :
    wp (copySegs dest bs segs) (fun _ g' => g.Copied g' (segChunks dest bs segs)) Fails g := by
  induction segs generalizing g with
  | nil => exact .nil g
  | cons s rest ih =>
      rw [copySegs, segChunks, wp_bind]
      apply wp_mono (copyLoop_copied _ _ _ _ _ _ g)
      · intro _ g' copied
        exact wp_mono (ih g') (fun _ g'' copied' => copied.trans copied') fun _ _ _ => trivial
      · exact fun _ _ _ => trivial

/-- Byte `i` of the device is part of a superblock copy or of an AG map copy. -/
def InRecord (g : Gofs) (i : Nat) : Prop :=
  i < SB_SIZE ∨ (g.sb.agmapOffset ≤ i ∧ i < g.sb.agmapOffset + g.sb.agmapLength +
  g.sb.agmapLength) ∨
    ∃ b, backupOff g.map g.sb.blocksize = some b ∧ b ≤ i ∧ i < b + SB_SIZE

/-- Only the volume's own records are written. -/
structure Recorded (g g' : Gofs) : Prop where
  entries : g'.map.entries = g.map.entries
  blocksize : g'.sb.blocksize = g.sb.blocksize
  agmapOffset : g'.sb.agmapOffset = g.sb.agmapOffset
  agmapLength : g'.sb.agmapLength = g.sb.agmapLength
  journalStart : g'.sb.journalStart = g.sb.journalStart
  grows : g.dev.fileLen ≤ g'.dev.fileLen
  bytes : ∀ i, ¬ g.InRecord i → g'.dev.bytes i = g.dev.bytes i

theorem backupOff_congr {m m' : AgMap} (same : m'.entries = m.entries) (bs : Nat) :
    backupOff m' bs = backupOff m bs := by
  rw [backupOff, backupOff, same]

theorem Recorded.trans {g g' g'' : Gofs} (h : g.Recorded g') (h' : g'.Recorded g'') :
    g.Recorded g'' where
  entries := h'.entries.trans h.entries
  blocksize := h'.blocksize.trans h.blocksize
  agmapOffset := h'.agmapOffset.trans h.agmapOffset
  agmapLength := h'.agmapLength.trans h.agmapLength
  journalStart := h'.journalStart.trans h.journalStart
  grows := Nat.le_trans h.grows h'.grows
  bytes := by
    intro i out
    have out' : ¬ g'.InRecord i := by
      rw [InRecord, h.agmapOffset, h.agmapLength, h.blocksize, backupOff_congr h.entries]
      exact out
    rw [h'.bytes i out', h.bytes i out]

variable [Crc32c]

theorem writeAgmap_recorded (g : Gofs) : wp writeAgmap (fun _ g' => g.Recorded g') Fails g := by
  rw [writeAgmap, wp_bind, wp_get, wp_bind]
  apply wp_mono (increase_wp _ _ _ g)
  · rintro gen g ⟨rfl, -, -⟩
    rw [wp_bind, wp_modify, wp_bind, wp_get, wp_bind, wp_ofResult]
    split
    · rename_i buf stored
      rw [wp_bind, pwrite, wp_modify, pwrite, wp_modify]
      refine ⟨rfl, rfl, rfl, rfl, rfl, Nat.le_trans (Device.pwrite_grows _ _ _ _)
          (Device.pwrite_grows _ _ _ _),
        fun i out => ?_⟩
      have apart : ¬ (g.sb.agmapOffset ≤ i ∧ i < g.sb.agmapOffset + g.sb.agmapLength +
          g.sb.agmapLength) :=
        fun inside => out (.inr (.inl inside))
      show copyAt (copyAt g.dev.bytes g.sb.agmapOffset g.sb.agmapLength buf)
        (g.sb.agmapOffset + g.sb.agmapLength) g.sb.agmapLength buf i = g.dev.bytes i
      rw [copyAt_of_not_mem (by omega), copyAt_of_not_mem (by omega)]
    · trivial
  · exact fun _ _ _ => trivial

theorem writeSuperblock_recorded (g : Gofs) :
    wp writeSuperblock (fun _ g' => g.Recorded g') Fails g := by
  simp only [writeSuperblock, wp_bind, wp_get, wp_ite, wp_panicWith, wp_modify, pwrite]
  split
  · trivial
  · split
    · refine ⟨rfl, rfl, rfl, rfl, rfl, Device.pwrite_grows _ _ _ _, fun i out => ?_⟩
      have past : SB_SIZE ≤ i := Nat.le_of_not_lt fun low => out (.inl low)
      exact copyAt_of_not_mem (.inr (by omega))
    · rename_i b backup
      refine ⟨rfl, rfl, rfl, rfl, rfl, Nat.le_trans (Device.pwrite_grows _ _ _ _)
          (Device.pwrite_grows _ _ _ _),
        fun i out => ?_⟩
      have past : SB_SIZE ≤ i := Nat.le_of_not_lt fun low => out (.inl low)
      have apart : ¬ (b ≤ i ∧ i < b + SB_SIZE) :=
          fun inside => out (.inr (.inr ⟨b, backup, inside⟩))
      show copyAt (copyAt g.dev.bytes 0 SB_SIZE _) b SB_SIZE _ i = g.dev.bytes i
      rw [copyAt_of_not_mem (by omega), copyAt_of_not_mem (by omega)]

theorem persistMap_recorded (g : Gofs) : wp persistMap (fun _ g' => g.Recorded g') Fails g := by
  rw [persistMap, wp_bind]
  apply wp_mono (writeAgmap_recorded g)
  · intro _ g₁ written
    rw [wp_bind]
    apply wp_mono (writeSuperblock_recorded g₁)
    · intro _ g₂ written'
      rw [sync, wp_modify]
      have synced : g₂.Recorded { g₂ with dev := g₂.dev.sync } :=
        ⟨rfl, rfl, rfl, rfl, rfl, Nat.le_refl _, fun _ _ => rfl⟩
      exact (written.trans written').trans synced
    · exact fun _ _ _ => trivial
  · exact fun _ _ _ => trivial

/-- A volume as the resize calls find it: the segments of each PRESENT AG map its blocks once, into
the file, and no two AGs share a byte. -/
structure Sited (g : Gofs) : Prop where
  rooted : g.map.Rooted g.sb
  tiled : ∀ e ∈ g.map.entries, e.present → e.length < 2 ^ 32 ∧ e.Tiled
  inside : ∀ e ∈ g.map.entries, e.present → ∀ s ∈ e.segs, s.devEnd g.sb.blocksize ≤ g.dev.fileLen
  apart : g.map.entries.Pairwise (AgEntry.Apart g.sb.blocksize)

/-- What `relocate` has done when it returns. -/
structure Moved (g g' : Gofs) (ag dest : Nat) (e : AgEntry) : Prop where
  present : e.present
  movable : e.immovable = false
  clear : g.map.overlapsExcluding g.sb.blocksize dest (e.length * g.sb.blocksize) ag = false
  done : ∃ g₁, g.Copied g₁ (segChunks dest g.sb.blocksize e.segs) ∧
    Recorded { g₁ with
      map := { g₁.map with
        entries := g₁.map.entries.set ag { e with segs := [⟨0, e.length, dest⟩] } } } g'

theorem relocate_moved (g : Gofs) (ag dest : Nat) :
    wp (relocate ag dest) (fun _ g' => ∃ e, g.map.entries[ag]? = some e ∧ g.Moved g' ag dest e)
    Fails g := by
  rw [relocate, wp_bind, wp_get]
  dsimp only
  rw [wp_ite]
  split
  · trivial
  · split
    · trivial
    · rename_i e entry
      rw [wp_ite]
      split
      · trivial
      · rename_i present
        rw [wp_ite]
        split
        · trivial
        · rename_i movable
          rw [wp_ite]
          split
          · trivial
          · rw [wp_ite]
            split
            · trivial
            · rename_i clear
              rw [wp_bind]
              apply wp_mono (copySegs_copied dest g.sb.blocksize e.segs g)
              · intro _ g₁ copied
                rw [wp_bind, sync, wp_modify, wp_bind, setEntry, wp_modify]
                apply wp_mono (persistMap_recorded _)
                · intro _ g' recorded
                  refine ⟨e, entry, Decidable.not_not.mp present, Bool.eq_false_iff.mpr movable,
                    Bool.eq_false_iff.mpr clear, g₁, copied, ?_⟩
                  exact ⟨recorded.entries, recorded.blocksize, recorded.agmapOffset,
                      recorded.agmapLength,
                    recorded.journalStart, recorded.grows, recorded.bytes⟩
                · exact fun _ _ _ => trivial
              · exact fun _ _ _ => trivial

end Gofs

namespace AgMap

theorem find_seg {segs : List AgSegment} (apart : segs.Pairwise AgSegment.Apart) {s : AgSegment}
    (hs : s ∈ segs) {l : Nat} (low : s.agBlock ≤ l) (high : l < s.agBlock + s.blocks) :
    (segs.find? fun t => t.agBlock ≤ l && l < t.agBlock + t.blocks) = some s := by
  induction segs with
  | nil => cases hs
  | cons t rest ih =>
      obtain ⟨first, later⟩ := List.pairwise_cons.mp apart
      rcases List.mem_cons.mp hs with rfl | behind
      · rw [List.find?_cons_of_pos]
        simp [low, high]
      · rw [List.find?_cons_of_neg, ih later behind]
        have other := first s behind
        unfold AgSegment.Apart at other
        simp only [Bool.and_eq_true, decide_eq_true_eq, not_and, not_lt]
        omega

variable {m : AgMap} {ag l : Nat} {e : AgEntry}

theorem resolve_seg (bs : Nat) (entry : m.entries[ag]? = some e) (present : e.present)
    (short : e.length < 2 ^ 32)
    (tiled : e.Tiled) {s : AgSegment} (hs : s ∈ e.segs) (low : s.agBlock ≤ l)
    (high : l < s.agBlock + s.blocks) :
    m.resolve (blkAddr ag l) bs = some (s.devOffset + (l - s.agBlock) * bs) := by
  have inside := tiled.inside s hs
  have split : blkSplit (blkAddr ag l) = (ag, l) := by
    rw [blkSplit, blkAddr, Nat.mul_comm, Nat.mul_add_div (by decide), Nat.mul_add_mod,
      Nat.div_eq_of_lt (by omega), Nat.mod_eq_of_lt (by omega), Nat.add_zero]
  have flag : ¬ (e.flags &&& AGF_PRESENT = 0 ∨ l ≥ e.length) := by
    rintro (zero | past)
    · rw [AgEntry.present, zero] at present
      cases present
    · omega
  rw [resolve, split]
  dsimp only
  rw [entry]
  dsimp only
  rw [if_neg flag, find_seg tiled.apart hs low high]
  rfl

theorem resolve_set (bs : Nat) (other : AgEntry) {moved : Nat} (away : ag ≠ moved)
    (short : l < 2 ^ 32) (gen : Nat) :
    (AgMap.mk gen (m.entries.set moved other)).resolve (blkAddr ag l) bs = m.resolve (blkAddr ag l)
    bs := by
  have split : blkSplit (blkAddr ag l) = (ag, l) := by
    rw [blkSplit, blkAddr, Nat.mul_comm, Nat.mul_add_div (by decide), Nat.mul_add_mod,
      Nat.div_eq_of_lt short, Nat.mod_eq_of_lt short, Nat.add_zero]
  rw [resolve, resolve, split]
  dsimp only
  rw [List.getElem?_set_ne fun h => away h.symm]

end AgMap

namespace Gofs

theorem readBlock_value {g : Gofs} {blk off : Nat}
    (found : g.map.resolve blk g.sb.blocksize = some off)
    (inside : off + g.sb.blocksize ≤ g.dev.fileLen) :
    (readBlock blk g).1 = .ok (clip g.sb.blocksize (drop off g.dev.bytes)) := by
  simp only [readBlock, bind_run, get_run, resolve, found, pure_run, pread, Device.pread_ok inside]
  rfl

/-- The block is part of the volume's own records: a superblock copy or an AG map copy. -/
def VolumeRecord (g : Gofs) (blk : Nat) : Prop :=
  ∃ off, g.map.resolve blk g.sb.blocksize = some off ∧ ∃ i, off ≤ i ∧ i < off + g.sb.blocksize ∧
  g.InRecord i

variable {g g' : Gofs} {ag dest : Nat} {e : AgEntry}

theorem Sited.record_low (sited : g.Sited) : ∃ len rest,
    g.map.entries = ⟨AGF_PRESENT ||| AGF_IMMOVABLE, len, [⟨0, len, 0⟩]⟩ :: rest ∧
      ∀ i, g.InRecord i → i < len * g.sb.blocksize := by
  obtain ⟨len, rest, entries, behind⟩ := sited.rooted.first
  have block := sited.rooted.block
  have primary := sited.rooted.primary
  have copies := sited.rooted.copies
  have some_bytes : 0 < SB_SIZE := by decide
  have whole : (len - 1) * g.sb.blocksize + g.sb.blocksize ≤ len * g.sb.blocksize := by
    rcases len with _ | n
    · omega
    · rw [Nat.add_sub_cancel, Nat.succ_mul]
  refine ⟨len, rest, entries, fun i record => ?_⟩
  rcases record with low | ⟨-, low⟩ | ⟨b, backup, -, low⟩
  · omega
  · omega
  · rw [backupOff, entries] at backup
    simp only [Nat.zero_add, Option.some.injEq] at backup
    omega

theorem Moved.ne_zero (sited : g.Sited) (moved : g.Moved g' ag dest e)
    (entry : g.map.entries[ag]? = some e) : ag ≠ 0 := by
  rintro rfl
  obtain ⟨len, rest, entries, -⟩ := sited.rooted.first
  rw [entries] at entry
  cases entry
  have immovable : (AgEntry.mk (AGF_PRESENT ||| AGF_IMMOVABLE) len [⟨0, len, 0⟩]).immovable =
      true :=
    decide_eq_true (by decide : (AGF_PRESENT ||| AGF_IMMOVABLE) &&& AGF_IMMOVABLE ≠ 0)
  rw [moved.movable] at immovable
  cases immovable

theorem backupOff_set (m : AgMap) (other : AgEntry) (later : ag ≠ 0) (gen bs : Nat) :
    backupOff (AgMap.mk gen (m.entries.set ag other)) bs = backupOff m bs := by
  obtain ⟨k, rfl⟩ := Nat.exists_eq_succ_of_ne_zero later
  rw [backupOff, backupOff]
  cases m.entries with
  | nil => rfl
  | cons first rest => rfl

theorem chunk_home (tiled : e.Tiled) {bs : Nat} {c : Chunk}
    (member : c ∈ segChunks dest bs e.segs) :
    dest ≤ c.dst ∧ c.dst + c.len ≤ dest + e.length * bs := by
  obtain ⟨s, hs, x, -, atDst, short⟩ := mem_segChunks member
  have rows : (s.agBlock + s.blocks) * bs ≤ e.length * bs :=
      Nat.mul_le_mul_right _ (tiled.inside s hs)
  rw [Nat.add_mul] at rows
  omega

theorem Moved.copied (sited : g.Sited) (moved : g.Moved g' ag dest e)
    (entry : g.map.entries[ag]? = some e) {i : Nat} (out : ¬ g.InRecord i) :
    g'.dev.bytes i = Chunk.copyAll g.dev.bytes (segChunks dest g.sb.blocksize e.segs) i := by
  have later := moved.ne_zero sited entry
  obtain ⟨g₁, copied, recorded⟩ := moved.done
  have out' : ¬ InRecord { g₁ with map := { g₁.map with
      entries := g₁.map.entries.set ag { e with segs := [⟨0, e.length, dest⟩] } } } i := by
    rw [InRecord, backupOff_set _ _ later, copied.sb, copied.map]
    exact out
  rw [recorded.bytes i out', ← copied.bytes]

theorem Moved.kept (sited : g.Sited) (moved : g.Moved g' ag dest e)
    (entry : g.map.entries[ag]? = some e) {i : Nat} (out : ¬ g.InRecord i)
    (away : i < dest ∨ dest + e.length * g.sb.blocksize ≤ i) : g'.dev.bytes i = g.dev.bytes i := by
  obtain ⟨-, tiled⟩ := sited.tiled e (List.mem_of_getElem? entry) moved.present
  rw [moved.copied sited entry out]
  apply Chunk.copyAll_of_not_mem
  intro c member
  have home := chunk_home tiled member
  omega

theorem Moved.entries (moved : g.Moved g' ag dest e) :
    g'.map.entries = g.map.entries.set ag { e with segs := [⟨0, e.length, dest⟩] } ∧
      g'.sb.blocksize = g.sb.blocksize ∧ g.dev.fileLen ≤ g'.dev.fileLen := by
  obtain ⟨g₁, copied, recorded⟩ := moved.done
  refine ⟨?_, ?_, Nat.le_trans copied.grows recorded.grows⟩
  · rw [recorded.entries, copied.map]
  · rw [recorded.blocksize, copied.sb]

theorem Sited.block (sited : g.Sited) {a l : Nat} {e : AgEntry} (entry : g.map.entries[a]? = some e)
    (present : e.present) (inside : l < e.length) : ∃ s ∈ e.segs, s.agBlock ≤ l ∧
      l < s.agBlock + s.blocks ∧
      g.map.resolve (blkAddr a l) g.sb.blocksize = some
      (s.devOffset + (l - s.agBlock) * g.sb.blocksize) ∧
      s.devOffset + (l - s.agBlock) * g.sb.blocksize + g.sb.blocksize ≤ s.devEnd g.sb.blocksize ∧
      s.devEnd g.sb.blocksize ≤ g.dev.fileLen := by
  have member := List.mem_of_getElem? entry
  obtain ⟨short, tiled⟩ := sited.tiled e member present
  obtain ⟨s, hs, low, high⟩ := tiled.covers l inside
  refine ⟨s, hs, low, high, AgMap.resolve_seg _ entry present short tiled hs low high, ?_,
    sited.inside e member present s hs⟩
  have rows : (l - s.agBlock + 1) * g.sb.blocksize ≤ s.blocks * g.sb.blocksize :=
    Nat.mul_le_mul_right _ (by omega)
  rw [Nat.succ_mul] at rows
  rw [AgSegment.devEnd]
  omega

theorem Moved.others (sited : g.Sited) (moved : g.Moved g' ag dest e)
    (entry : g.map.entries[ag]? = some e) {a l : Nat} (other : a ≠ ag) (has : g.map.Has a l)
    (out : ¬ g.VolumeRecord (blkAddr a l)) :
    (readBlock (blkAddr a l) g').1 = (readBlock (blkAddr a l) g).1 := by
  obtain ⟨e', entry', present', inside'⟩ := has
  obtain ⟨s, hs, low, high, found, within, fits⟩ := sited.block entry' present' inside'
  obtain ⟨entries, blocksize, grows⟩ := moved.entries
  obtain ⟨short, -⟩ := sited.tiled e' (List.mem_of_getElem? entry') present'
  have found' : g'.map.resolve (blkAddr a l) g'.sb.blocksize =
      some (s.devOffset + (l - s.agBlock) * g.sb.blocksize) := by
    have same := AgMap.resolve_set (m := g.map) g.sb.blocksize
        { e with segs := [⟨0, e.length, dest⟩] }
      other (l := l) (by omega) g'.map.gen
    rw [blocksize, ← found, ← same, ← entries]
  have apart := AgMap.apart_of_overlaps moved.clear entry' other s hs
  rw [readBlock_value found (by omega), readBlock_value found' (by omega), blocksize]
  refine congrArg _ (clip_congr fun i hi => ?_)
  refine moved.kept sited entry (fun record => out ⟨_, found, _, ?_, ?_, record⟩) ?_
  · omega
  · omega
  · omega

theorem Sited.no_record (sited : g.Sited) (entry : g.map.entries[ag]? = some e) (later : ag ≠ 0)
    {s : AgSegment} (hs : s ∈ e.segs) {i : Nat} (low : s.devOffset ≤ i)
    (high : i < s.devEnd g.sb.blocksize) :
    ¬ g.InRecord i := by
  intro record
  obtain ⟨len, rest, entries, below⟩ := sited.record_low
  obtain ⟨k, rfl⟩ := Nat.exists_eq_succ_of_ne_zero later
  have apart := sited.apart
  rw [entries] at apart entry
  have member : e ∈ rest := List.mem_of_getElem? (by simpa using entry)
  have home := (List.pairwise_cons.mp apart).1 e member ⟨0, len, 0⟩ (List.mem_singleton_self _) s hs
  have inHead := below i record
  rw [AgSegment.devEnd] at home
  dsimp only at home
  omega

theorem Moved.no_record (sited : g.Sited) (moved : g.Moved g' ag dest e)
    (entry : g.map.entries[ag]? = some e) {i : Nat} (low : dest ≤ i)
    (high : i < dest + e.length * g.sb.blocksize) : ¬ g.InRecord i := by
  intro record
  obtain ⟨len, rest, entries, below⟩ := sited.record_low
  have first : g.map.entries[0]? = some ⟨AGF_PRESENT ||| AGF_IMMOVABLE, len, [⟨0, len, 0⟩]⟩ := by
    rw [entries]
    rfl
  have home := AgMap.apart_of_overlaps moved.clear first (moved.ne_zero sited entry).symm
      ⟨0, len, 0⟩
    (List.mem_singleton_self _)
  have inHead := below i record
  rw [AgSegment.devEnd] at home
  dsimp only at home
  omega

theorem Moved.home (sited : g.Sited) (moved : g.Moved g' ag dest e)
    (entry : g.map.entries[ag]? = some e) {l : Nat} (inside : l < e.length) :
    g'.map.resolve (blkAddr ag l) g'.sb.blocksize = some (dest + l * g.sb.blocksize) ∧
      dest + l * g.sb.blocksize + g.sb.blocksize ≤ g'.dev.fileLen := by
  obtain ⟨entries, blocksize, grows⟩ := moved.entries
  obtain ⟨short, tiled⟩ := sited.tiled e (List.mem_of_getElem? entry) moved.present
  refine ⟨?_, ?_⟩
  · have entry' : g'.map.entries[ag]? = some { e with segs := [⟨0, e.length, dest⟩] } := by
      rw [entries, List.getElem?_set_self (List.getElem?_eq_some_iff.mp entry).1]
    have found := AgMap.resolve_seg g.sb.blocksize entry' moved.present short
      (AgEntry.tiled_single e.flags e.length dest)
      (List.mem_singleton_self _) (Nat.zero_le l) (by rw [Nat.zero_add]; exact inside)
    rw [blocksize]
    exact found
  · have block : 0 < g.sb.blocksize := Nat.lt_of_lt_of_le (by decide) sited.rooted.block
    obtain ⟨s, hs, low, high⟩ := tiled.covers l inside
    have rows : (l - s.agBlock + 1) * g.sb.blocksize ≤ s.blocks * g.sb.blocksize :=
      Nat.mul_le_mul_right _ (by omega)
    have shifted : l * g.sb.blocksize = s.agBlock * g.sb.blocksize + (l - s.agBlock) *
        g.sb.blocksize := by
      rw [← Nat.add_mul]
      congr 1
      omega
    rw [Nat.succ_mul] at rows
    obtain ⟨c, member, k, hk, -, atDst⟩ := segChunks_cover dest block hs
      (x := (l - s.agBlock) * g.sb.blocksize + (g.sb.blocksize - 1)) (by omega)
    obtain ⟨g₁, copied, recorded⟩ := moved.done
    have reached : c.dst + c.len ≤ g'.dev.fileLen :=
        Nat.le_trans (copied.inside c member) recorded.grows
    omega

theorem Moved.own_block (sited : g.Sited) (moved : g.Moved g' ag dest e)
    (entry : g.map.entries[ag]? = some e) {s : AgSegment} (hs : s ∈ e.segs) {l : Nat}
    (low : s.agBlock ≤ l) (high : l < s.agBlock + s.blocks) :
    (readBlock (blkAddr ag l) g').1 = (readBlock (blkAddr ag l) g).1 ↔ ∀ i < g.sb.blocksize,
      Chunk.copyAll g.dev.bytes (segChunks dest g.sb.blocksize e.segs)
      (dest + l * g.sb.blocksize + i) =
        g.dev.bytes (s.devOffset + (l - s.agBlock) * g.sb.blocksize + i) := by
  have member := List.mem_of_getElem? entry
  obtain ⟨short, tiled⟩ := sited.tiled e member moved.present
  have inside : l < e.length := Nat.lt_of_lt_of_le high (tiled.inside s hs)
  have fits := sited.inside e member moved.present s hs
  have rows : (l - s.agBlock + 1) * g.sb.blocksize ≤ s.blocks * g.sb.blocksize :=
    Nat.mul_le_mul_right _ (by omega)
  have whole : (l + 1) * g.sb.blocksize ≤ e.length * g.sb.blocksize := Nat.mul_le_mul_right _ inside
  rw [Nat.succ_mul] at rows whole
  have found := AgMap.resolve_seg g.sb.blocksize entry moved.present short tiled hs low high
  obtain ⟨found', reached⟩ := moved.home sited entry inside
  obtain ⟨-, blocksize, -⟩ := moved.entries
  rw [AgSegment.devEnd] at fits
  rw [readBlock_value found (by omega), readBlock_value found' (by rw [blocksize]; exact reached),
      blocksize,
    Except.ok.injEq, clip_eq_iff]
  have delivered : ∀ i < g.sb.blocksize, drop (dest + l * g.sb.blocksize) g'.dev.bytes i =
      Chunk.copyAll g.dev.bytes (segChunks dest g.sb.blocksize e.segs)
      (dest + l * g.sb.blocksize + i) :=
    fun i hi => moved.copied sited entry (moved.no_record sited entry (by omega) (by omega))
  constructor
  · intro same i hi
    rw [← delivered i hi, same i hi]
    rfl
  · intro same i hi
    rw [delivered i hi, same i hi]
    rfl

theorem Moved.own_iff (sited : g.Sited) (moved : g.Moved g' ag dest e)
    (entry : g.map.entries[ag]? = some e) :
    (∀ l < e.length, (readBlock (blkAddr ag l) g').1 = (readBlock (blkAddr ag l) g).1) ↔
      (segChunks dest g.sb.blocksize e.segs).Pairwise (Chunk.Agrees g.dev.bytes) := by
  obtain ⟨short, tiled⟩ := sited.tiled e (List.mem_of_getElem? entry) moved.present
  have block : 0 < g.sb.blocksize := Nat.lt_of_lt_of_le (by decide) sited.rooted.block
  rw [← Chunk.copyAll_iff (segChunks_apart tiled.apart)]
  constructor
  · intro same c member k hk
    obtain ⟨s, hs, x, atSrc, atDst, within⟩ := mem_segChunks member
    have row : (x + k) / g.sb.blocksize < s.blocks := by
      apply Nat.div_lt_of_lt_mul
      rw [Nat.mul_comm]
      omega
    have split := Nat.div_add_mod' (x + k) g.sb.blocksize
    have bound : s.agBlock + (x + k) / g.sb.blocksize < e.length := by
      have := tiled.inside s hs
      omega
    have read := (moved.own_block sited entry hs (Nat.le_add_right _ _)
        (Nat.add_lt_add_left row _)).mp
      (same _ bound) _ (Nat.mod_lt (x + k) block)
    rw [Nat.add_sub_cancel_left, Nat.add_mul] at read
    rw [atSrc, atDst]
    convert read using 2
    · omega
    · omega
  · intro faithful l inside
    obtain ⟨s, hs, low, high⟩ := tiled.covers l inside
    rw [moved.own_block sited entry hs low high]
    intro i hi
    have rows : (l - s.agBlock + 1) * g.sb.blocksize ≤ s.blocks * g.sb.blocksize :=
      Nat.mul_le_mul_right _ (by omega)
    have shifted : l * g.sb.blocksize = s.agBlock * g.sb.blocksize + (l - s.agBlock) *
        g.sb.blocksize := by
      rw [← Nat.add_mul]
      congr 1
      omega
    rw [Nat.succ_mul] at rows
    obtain ⟨c, member, k, hk, atSrc, atDst⟩ := segChunks_cover dest block hs
      (x := (l - s.agBlock) * g.sb.blocksize + i) (by omega)
    have read := faithful c member k hk
    rw [atSrc, atDst] at read
    convert read using 2
    · omega
    · omega

theorem agrees_apart {β : Type} (m : Nat → β) {bs : Nat} (tiled : e.Tiled)
    (apart : ∀ s ∈ e.segs, s.devEnd bs ≤ dest ∨ dest + e.length * bs ≤ s.devOffset) :
    (segChunks dest bs e.segs).Pairwise (Chunk.Agrees m) := by
  refine List.pairwise_of_forall_mem_list ?_
  intro c hc d hd k hk l hl meets
  have home := chunk_home tiled hc
  obtain ⟨s, hs, x, atSrc, -, within⟩ := mem_segChunks hd
  have away := apart s hs
  rw [AgSegment.devEnd] at away
  omega

end Gofs

/-- Blocks of 2 KiB, AG 0 as mkfs lays it out in 8 MiB, and one more AG of 2 MiB right behind it
whose block 255 is all ones and the others all zeros. -/
def stripedVolume : Gofs where
  dev := {
    bytes := fun i => if 8388608 + 255 * 2048 ≤ i ∧ i < 8388608 + 256 * 2048 then 1 else 0
    fileLen := 16 <<< 20
    size := 16 <<< 20 }
  sb := {
    blocksize := 2048
    inodesize := 256
    nextAg := 2
    agmapOffset := 6144
    agmapLength := 65536
    journalStart := 67
    journalLength := 2048
    gen := 2
    journalSeq := 1 }
  map := {
    gen := 2
    entries := [⟨AGF_PRESENT ||| AGF_IMMOVABLE, 4096, [⟨0, 4096, 0⟩]⟩,
    ⟨AGF_PRESENT, 1024, [⟨0, 1024, 8388608⟩]⟩] }

theorem stripedVolume_sited : stripedVolume.Sited := by
  refine ⟨⟨⟨4096, [⟨AGF_PRESENT, 1024, [⟨0, 1024, 8388608⟩]⟩],
      rfl, by decide⟩, by decide, by decide, by decide⟩,
    ?_, ?_, ?_⟩
  · intro e member _
    rcases List.mem_cons.mp member with rfl | later
    · exact ⟨by decide, AgEntry.tiled_single _ _ _⟩
    · cases List.mem_singleton.mp later
      exact ⟨by decide, AgEntry.tiled_single _ _ _⟩
  · intro e member _ s hs
    rcases List.mem_cons.mp member with rfl | later
    · cases List.mem_singleton.mp hs
      decide
    · cases List.mem_singleton.mp later
      cases List.mem_singleton.mp hs
      decide
  · refine List.pairwise_pair.mpr fun s hs t ht => ?_
    cases List.mem_singleton.mp hs
    cases List.mem_singleton.mp ht
    exact .inl (by decide)

theorem stripedVolume_relocates (dest : Nat) (free : dest = 8390656 ∨ dest = 12 <<< 20) :
    ∃ g', @Gofs.relocate castagnoli 1 dest stripedVolume = (.ok (), g') := by
  have done : (match (@Gofs.relocate castagnoli 1 dest stripedVolume).1 with
      | .ok _ => true
      | .error _ => false) = true := by
    rcases free with rfl | rfl
    · decide +kernel
    · decide +kernel
  rcases run : @Gofs.relocate castagnoli 1 dest stripedVolume with ⟨e | ⟨⟩, g'⟩
  · rw [run] at done
    cases done
  · exact ⟨g', rfl⟩

/-- Block 256 of the moved AG was all zeros and now holds what block 255 held. -/
theorem relocate_clobbers : ∃ g', @Gofs.relocate castagnoli 1 8390656 stripedVolume = (.ok (), g') ∧
    stripedVolume.map.Has 1 256 ∧ ¬ stripedVolume.VolumeRecord (blkAddr 1 256) ∧
      (Gofs.readBlock (blkAddr 1 256) g').1 ≠ (Gofs.readBlock (blkAddr 1 256) stripedVolume).1 := by
  let crc := castagnoli
  obtain ⟨g', run⟩ := stripedVolume_relocates 8390656 (.inl rfl)
  obtain ⟨e, entry, moved⟩ := wp_ok (Gofs.relocate_moved stripedVolume 1 8390656) run
  cases entry
  have entry : stripedVolume.map.entries[1]? = some ⟨AGF_PRESENT, 1024, [⟨0, 1024, 8388608⟩]⟩ := rfl
  refine ⟨g', run, ⟨_, entry, rfl, by decide⟩, ?_, ?_⟩
  · rintro ⟨off, found, i, low, high, record⟩
    cases (show some (8388608 + 256 * 2048) = some off from found)
    have below : i < 8388608 + 1024 * 2048 := Nat.lt_trans high (by decide)
    have above : 8388608 ≤ i := Nat.le_trans (by decide) low
    exact stripedVolume_sited.no_record entry (by decide) (List.mem_singleton_self _) above below
        record
  · intro same
    have first := (moved.own_block stripedVolume_sited entry (List.mem_singleton_self _) (by decide)
      (by decide)).mp same 0 (by decide)
    revert first
    decide +kernel

/-- A relocation preserves every block, the volume's own records apart, exactly when no chunk of the
copy reads a byte that an earlier chunk has changed. -/
theorem Gofs.relocate_preserves_iff [Crc32c] {g g' : Gofs} {ag dest : Nat} {e : AgEntry}
    (sited : g.Sited) (entry : g.map.entries[ag]? = some e)
    (run : Gofs.relocate ag dest g = (.ok (), g')) :
    (∀ a l, g.map.Has a l → ¬ g.VolumeRecord (blkAddr a l) →
      (Gofs.readBlock (blkAddr a l) g').1 = (Gofs.readBlock (blkAddr a l) g).1) ↔
      (segChunks dest g.sb.blocksize e.segs).Pairwise (Chunk.Agrees g.dev.bytes) := by
  obtain ⟨e', entry', moved⟩ := wp_ok (relocate_moved g ag dest) run
  rw [entry] at entry'
  cases entry'
  rw [← moved.own_iff sited entry]
  constructor
  · intro same l inside
    apply same ag l ⟨e, entry, moved.present, inside⟩
    rintro ⟨off, found, i, low, high, record⟩
    obtain ⟨s, hs, lower, upper, found', within, -⟩ := sited.block entry moved.present inside
    rw [found'] at found
    cases found
    exact sited.no_record entry (moved.ne_zero sited entry) hs (by omega) (by omega) record
  · intro own a l has out
    by_cases here : a = ag
    · subst here
      obtain ⟨e', entry', -, inside⟩ := has
      rw [entry] at entry'
      cases entry'
      exact own l inside
    · exact moved.others sited entry here has out

/-- To a place apart from the AG itself the same move preserves every block. -/
theorem relocate_preserves_small : ∃ g', @Gofs.relocate castagnoli 1 (12 <<< 20)
    stripedVolume = (.ok (), g') ∧
    ∀ a l, stripedVolume.map.Has a l → ¬ stripedVolume.VolumeRecord (blkAddr a l) →
      (Gofs.readBlock (blkAddr a l) g').1 = (Gofs.readBlock (blkAddr a l) stripedVolume).1 := by
  let crc := castagnoli
  obtain ⟨g', run⟩ := stripedVolume_relocates (12 <<< 20) (.inr rfl)
  have entry : stripedVolume.map.entries[1]? = some ⟨AGF_PRESENT, 1024, [⟨0, 1024, 8388608⟩]⟩ := rfl
  refine ⟨g', run, (Gofs.relocate_preserves_iff stripedVolume_sited entry run).mpr ?_⟩
  apply Gofs.agrees_apart _ (AgEntry.tiled_single _ _ _)
  intro s hs
  cases List.mem_singleton.mp hs
  left
  decide

end FiveFs
