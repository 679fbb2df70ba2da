import FiveFs.CrashSafety
import FiveFs.Parted
import FiveFs.Shrink

/-! The backup superblock is found where a superblock was written last, for the block sizes that are
probed. -/

namespace FiveFs

open Buffer Prog

/-- What the search for the backup reads of a device: nothing but zeros behind the primary copy, and
AG 0's header. -/
structure Fronted [Crc32c] (d : Bytes) (bs top : Nat) : Prop where
  padding : ∀ i, SB_SIZE ≤ i → i < bs → d i = 0
  header : Gofs.HeaderOk top (drop bs d)

/-- Whatever replaces the primary copy, as long as it does not parse, the search comes up with `sb`.
-/
def Recovers [Crc32c] (dev : Device) (sb : Superblock) : Prop :=
  ∀ b, (∀ s, Superblock.parse (clip SB_SIZE b) ≠ .ok s) →
  Gofs.findSuperblock (dev.pwrite 0 SB_SIZE b) = .ok (sb, true)

section

variable [Crc32c] {d : Bytes} {bs top : Nat}

theorem Fronted.congr (front : Fronted d bs top) {d' : Bytes} (large : 2048 ≤ bs)
    (same : ∀ i, SB_SIZE ≤ i → i < 2 * bs → d' i = d i) : Fronted d' bs top := by
  have sizes : SB_SIZE = 512 ∧ AGHDR_SIZE = 64 := ⟨rfl, rfl⟩
  refine ⟨fun i low high => ?_, front.header.congr fun i hi => ?_⟩
  · rw [same i low (by omega), front.padding i low high]
  · exact same _ (by omega) (by omega)

theorem Fronted.copyAt (front : Fronted d bs top) (large : 2048 ≤ bs) {off n : Nat} (b : Bytes)
    (apart : 2 * bs ≤ off ∨ off + n ≤ SB_SIZE) : Fronted (copyAt d off n b) bs top :=
  front.congr large fun i _ _ => copyAt_of_not_mem (by omega)

theorem Fronted.applyAll {ws : List Write} (front : Fronted d bs top) (large : 2048 ≤ bs)
    (apart : ∀ w ∈ ws, 2 * bs ≤ w.off ∨ w.off + w.len ≤ SB_SIZE) :
    Fronted (Write.applyAll ws d) bs top := by
  refine front.congr large fun i low high => ?_
  apply Write.applyAll_of_not_covers
  rintro ⟨w, member, range⟩
  have place := apart w member
  omega

theorem recovers_iff {dev : Device} {sb : Superblock} (fits : sb.Fits) (large : 2048 ≤ sb.blocksize)
    (two : 2 ≤ top)
    (file : top * sb.blocksize ≤ dev.fileLen) (front : Fronted dev.bytes sb.blocksize top)
    (backup : dev.Holds ((top - 1) * sb.blocksize) SB_SIZE sb.toBytes) :
    Recovers dev sb ↔ sb.blocksize ≤ 65536 := by
  have sizes : SB_SIZE = 512 := rfl
  have behind : sb.blocksize ≤ (top - 1) * sb.blocksize := Nat.le_mul_of_pos_left _ (by omega)
  have whole : sb.blocksize ≤ top * sb.blocksize := Nat.le_mul_of_pos_left _ (by omega)
  have length : ∀ b, (dev.pwrite 0 SB_SIZE b).fileLen = dev.fileLen :=
      fun b => Nat.max_eq_left (by omega)
  have front' : ∀ b, Fronted (dev.pwrite 0 SB_SIZE b).bytes sb.blocksize top :=
    fun b => front.copyAt large b (.inr (by omega))
  constructor
  · intro recovers
    by_contra high
    obtain ⟨k, small, power⟩ := isPowerOfTwo_iff.mp fits.blocksize.1
    have exponent : 17 ≤ k := by
      by_contra less
      have := Nat.pow_le_pow_right (show 0 < 2 by decide) (show k ≤ 16 by omega)
      omega
    have huge : 131072 ≤ sb.blocksize := by
      have := Nat.pow_le_pow_right (show 0 < 2 by decide) exponent
      omega
    have clear : ∀ i < sb.blocksize, (dev.pwrite 0 SB_SIZE zeros).bytes i = 0 := by
      intro i hi
      by_cases low : i < SB_SIZE
      · exact copyAt_of_mem ⟨Nat.zero_le _, by omega⟩
      · exact (front' zeros).padding i (by omega) hi
    obtain ⟨e, lost⟩ := Gofs.findSuperblock_lost huge (by rw [length]; omega) clear
    have found := recovers zeros fun s => by
      rw [clip_zeros, Gofs.parse_zeros]
      exact fun h => by cases h
    rw [lost] at found
    cases found
  · intro probed b bad
    obtain ⟨small, rest, split, skip⟩ := Gofs.probeSizes_split fits.blocksize.1 large probed
    have primary : (dev.pwrite 0 SB_SIZE b).pread 0 SB_SIZE = .ok (clip SB_SIZE b) :=
        (Device.holds_pwrite dev 0 SB_SIZE b).pread
    have copy : Superblock.parse (clip SB_SIZE (drop ((top - 1) * sb.blocksize)
        (dev.pwrite 0 SB_SIZE b).bytes)) = .ok sb := by
      have apart : (top - 1) * sb.blocksize + SB_SIZE ≤ 0 ∨
          0 + SB_SIZE ≤ (top - 1) * sb.blocksize := .inr (by omega)
      have held := backup.pwrite apart b
      rw [Superblock.parse_clip]
      exact (Superblock.parse_congr held.same).trans (Superblock.parse_toBytes fits)
    rw [Gofs.findSuperblock, primary]
    rcases parsed : Superblock.parse (clip SB_SIZE b) with e | s
    · simp only [parsed]
      rw [split, Gofs.probeBackup_skips skip (by rw [length]; omega) (front' b).padding]
      exact Gofs.probeBackup_hit (front' b).header two (by omega) (by rw [length]; exact file) copy
          rfl
    · exact absurd parsed (bad s)

end

namespace Gofs

/-- A mounted volume whose backup copy the search can find: AG 0, of `top` blocks, starts the
device, and nothing else is mapped to its first two blocks. -/
structure Labelled [Crc32c] (g : Gofs) (bs top : Nat) : Prop where
  blocksize : g.sb.blocksize = bs
  fits : g.sb.Fits
  large : 2048 ≤ g.sb.blocksize
  room : 3 ≤ top
  first : ∃ rest, g.map.entries = ⟨AGF_PRESENT ||| AGF_IMMOVABLE, top, [⟨0, top, 0⟩]⟩ :: rest
  filled : ∀ e ∈ g.map.entries, e.length = 0 → ∀ s ∈ e.segs, s.blocks = 0
  others : ∀ k e, k ≠ 0 → g.map.entries[k]? = some e → ∀ s ∈ e.segs, 0 < s.blocks →
      2 * g.sb.blocksize ≤ s.devOffset
  agmap : 2 * g.sb.blocksize ≤ g.sb.agmapOffset
  journal : 2 ≤ g.sb.journalStart
  file : top * g.sb.blocksize ≤ g.dev.fileLen
  front : Fronted g.dev.bytes g.sb.blocksize top

/-- The copy in the last block of AG 0 is that of the superblock in memory. -/
def BackedUp [Crc32c] (g : Gofs) (top : Nat) : Prop :=
  g.dev.Holds ((top - 1) * g.sb.blocksize) SB_SIZE g.sb.toBytes

/-- A block that may be written while mounted: not the first one, and to AG 0's header only a header
of AG 0. -/
def Writable [Crc32c] (top blk : Nat) (b : Bytes) : Prop := blk ≠ 0 ∧ (blk = 1 → HeaderOk top b)

section

variable [Crc32c] {g : Gofs} {bs top : Nat}

namespace Labelled

theorem pwrite (labelled : g.Labelled bs top) {off : Nat} (behind : 2 * g.sb.blocksize ≤ off)
    (n : Nat) (b : Bytes) :
    Labelled { g with dev := g.dev.pwrite off n b } bs top :=
  { labelled with
    file := Nat.le_trans labelled.file (Device.pwrite_grows _ _ _ _)
    front := labelled.front.copyAt labelled.large b (.inl behind) }

theorem sync (labelled : g.Labelled bs top) : Labelled { g with dev := g.dev.sync } bs top :=
  { labelled with }

theorem zero (labelled : g.Labelled bs top) :
    g.map.entries[0]? = some ⟨AGF_PRESENT ||| AGF_IMMOVABLE, top, [⟨0, top, 0⟩]⟩ := by
  obtain ⟨rest, entries⟩ := labelled.first
  rw [entries]
  rfl

theorem setEntry (labelled : g.Labelled bs top) {ag : Nat} (later : ag ≠ 0) {e : AgEntry}
    (filled : e.length = 0 → ∀ s ∈ e.segs, s.blocks = 0)
    (apart : ∀ s ∈ e.segs, 0 < s.blocks → 2 * g.sb.blocksize ≤ s.devOffset) :
    Labelled { g with map := { g.map with entries := g.map.entries.set ag e } } bs top := by
  obtain ⟨rest, entries⟩ := labelled.first
  obtain ⟨k, rfl⟩ := Nat.exists_eq_succ_of_ne_zero later
  refine { labelled with
    first := ⟨rest.set k e, ?_⟩
    filled := fun e' member none => ?_
    others := fun i e' other entry => ?_ }
  · show g.map.entries.set _ _ = _
    rw [entries]
    rfl
  · rcases List.mem_or_eq_of_mem_set member with old | rfl
    · exact labelled.filled e' old none
    · exact filled none
  · by_cases same : k + 1 = i
    · subst same
      rw [List.getElem?_set_self'] at entry
      obtain ⟨_, -, rfl⟩ := Option.map_eq_some_iff.mp entry
      exact apart
    · rw [List.getElem?_set_ne same] at entry
      exact labelled.others i e' other entry

theorem append (labelled : g.Labelled bs top) {e : AgEntry} (some_blocks : ¬ e.length = 0)
    {nextAg free rsvd : Nat}
    (apart : ∀ s ∈ e.segs, 2 * g.sb.blocksize ≤ s.devOffset) (nextAgFits : nextAg < 2 ^ 32)
    (freeFits : free < 2 ^ 64) (rsvdFits : rsvd < 2 ^ 64) : Labelled { g with
      map := { g.map with entries := g.map.entries ++ [e] }
      sb := { g.sb with nextAg, freeBlocks := free, rsvdBlocks := rsvd } } bs top := by
  obtain ⟨rest, entries⟩ := labelled.first
  refine { labelled with
    fits := { labelled.fits with
      nextAg := nextAgFits
      freeBlocks := freeFits
      rsvdBlocks := rsvdFits }
    first := ⟨rest ++ [e], ?_⟩
    filled := fun e' member none => ?_
    others := fun i e' other entry s hs more => ?_ }
  · show g.map.entries ++ _ = _
    rw [entries]
    rfl
  · rcases List.mem_append.mp member with old | new
    · exact labelled.filled e' old none
    · exact absurd (List.mem_singleton.mp new ▸ none) some_blocks
  · by_cases inside : i < g.map.entries.length
    · exact labelled.others i e' other ((List.getElem?_append_left inside).symm.trans entry) s hs
          more
    · have last : (g.map.entries ++ [e])[i]? = some e' := entry
      rw [List.getElem?_append_right (Nat.le_of_not_lt inside)] at last
      exact apart s (List.mem_singleton.mp (List.mem_of_getElem? last) ▸ hs)

theorem behind (labelled : g.Labelled bs top) :
    2 * g.sb.blocksize ≤ (top - 1) * g.sb.blocksize := by
  have room := labelled.room
  exact Nat.mul_le_mul_right _ (by omega)

theorem writeSuperblock (labelled : g.Labelled bs top) : wp writeSuperblock
    (fun _ g' => g'.Labelled bs top ∧ g'.BackedUp top) (fun _ g' => g'.Labelled bs top) g := by
  by_cases gen : g.sb.gen + 1 < 2 ^ 64
  · obtain ⟨rest, entries⟩ := labelled.first
    rw [wp_run (writeSuperblock_rooted entries gen)]
    refine ⟨{ labelled with fits := { labelled.fits with gen }, file := ?_, front := ?_ },
        Device.holds_pwrite _ _ _ _⟩
    · exact Nat.le_trans labelled.file (Nat.le_trans (Device.pwrite_grows _ _ _ _)
          (Device.pwrite_grows _ _ _ _))
    · have primary : Fronted (copyAt g.dev.bytes 0 SB_SIZE (bumped g.sb).toBytes) g.sb.blocksize
          top :=
        labelled.front.copyAt labelled.large _ (.inr (Nat.le_of_eq (Nat.zero_add _)))
      exact primary.copyAt labelled.large _ (.inl labelled.behind)
  · simp only [Gofs.writeSuperblock, wp_bind, wp_get, wp_ite, wp_panicWith]
    rw [if_pos (Nat.le_of_not_lt gen)]
    exact labelled

theorem increase (labelled : g.Labelled bs top) (width a b : Nat) :
    wp (Gofs.increase width a b) (fun r g' => g' = g ∧ r = a + b ∧ r < 2 ^ width)
    (fun _ g' => g'.Labelled bs top) g := by
  rw [Gofs.increase, wp_ite]
  split
  · exact ⟨rfl, rfl, ‹_›⟩
  · exact labelled

theorem subtract (labelled : g.Labelled bs top) (a b : Nat) :
    wp (Gofs.subtract a b) (fun r g' => g' = g ∧ r ≤ a) (fun _ g' => g'.Labelled bs top) g := by
  rw [Gofs.subtract, wp_ite]
  split
  · exact ⟨rfl, Nat.sub_le _ _⟩
  · exact labelled

theorem writeAgmap (labelled : g.Labelled bs top) :
    wp writeAgmap (fun _ g' => g'.Labelled bs top) (fun _ g' => g'.Labelled bs top) g := by
  rw [Gofs.writeAgmap, wp_bind, wp_get, wp_bind]
  refine wp_mono (labelled.increase _ _ _) ?_ fun _ _ kept => kept
  rintro gen g ⟨rfl, -, -⟩
  rw [wp_bind, wp_modify, wp_bind, wp_get, wp_bind, wp_ofResult]
  have moved : Labelled { g with map := { g.map with gen } } bs top := { labelled with }
  split
  · rw [wp_bind, Gofs.pwrite, wp_modify, Gofs.pwrite, wp_modify]
    exact (moved.pwrite labelled.agmap _ _).pwrite
        (Nat.le_trans labelled.agmap (Nat.le_add_right _ _)) _ _
  · exact moved

theorem persistMap (labelled : g.Labelled bs top) :
    wp persistMap (fun _ g' => g'.Labelled bs top ∧ g'.BackedUp top)
    (fun _ g' => g'.Labelled bs top) g := by
  rw [Gofs.persistMap, wp_bind]
  refine wp_mono labelled.writeAgmap ?_ fun _ _ kept => kept
  intro _ g₁ kept
  rw [wp_bind]
  refine wp_mono kept.writeSuperblock ?_ fun _ _ kept => kept
  rintro _ g₂ ⟨kept, stored⟩
  rw [Gofs.sync, wp_modify]
  exact ⟨kept.sync, stored.sync⟩

theorem free_behind (labelled : g.Labelled bs top) {off size skip : Nat} (later : skip ≠ 0)
    (some_bytes : 0 < size)
    (free : g.map.overlapsExcluding g.sb.blocksize off size skip = false) :
    2 * g.sb.blocksize ≤ off := by
  have apart := AgMap.apart_of_overlaps free labelled.zero (Ne.symm later) ⟨0, top, 0⟩
      (List.mem_singleton_self _)
  have two : 2 * g.sb.blocksize ≤ top * g.sb.blocksize :=
      Nat.mul_le_mul_right _ (by have room := labelled.room; omega)
  simp only [AgSegment.devEnd] at apart
  omega

theorem addAg (labelled : g.Labelled bs top) (devOffset bytes : Nat) :
    wp (addAg devOffset bytes) (fun _ g' => g'.Labelled bs top ∧ g'.BackedUp top)
    (fun _ g' => g'.Labelled bs top) g := by
  rw [Gofs.addAg, wp_bind, wp_get]
  dsimp only
  rw [wp_ite]
  split
  · exact labelled
  rw [wp_ite]
  split
  · exact labelled
  rename_i enough
  rw [wp_ite]
  split
  · exact labelled
  rename_i free
  have some_bytes : 0 < bytes := by
    by_contra none
    have zero : bytes = 0 := by omega
    rw [zero, Nat.zero_div, Nat.zero_mod] at enough
    omega
  have behind := labelled.free_behind (by decide) some_bytes (Bool.eq_false_iff.mpr free)
  rw [wp_bind]
  refine wp_mono (labelled.subtract _ _) ?_ fun _ _ kept => kept
  rintro freeCells g ⟨rfl, -⟩
  rw [wp_bind]
  refine wp_mono (labelled.subtract _ _) ?_ fun _ _ kept => kept
  rintro rsvdBlocks g ⟨rfl, -⟩
  rw [wp_bind, Gofs.pwrite, wp_modify, wp_bind, Gofs.pwrite, wp_modify, wp_bind, Gofs.sync,
      wp_modify, wp_bind]
  have body : ∀ hdr table : Bytes, Labelled { g with dev :=
      ((g.dev.pwrite devOffset g.sb.blocksize hdr).pwrite
      (devOffset + 1 * g.sb.blocksize) ((rtGeometry (bytes / g.sb.blocksize % 2 ^ 32)
      g.sb.blocksize).2 *
        g.sb.blocksize) table).sync } bs top := fun hdr table =>
    ((labelled.pwrite behind _ hdr).pwrite (Nat.le_trans behind (Nat.le_add_right _ _))
        _ table).sync
  refine wp_mono ((body _ _).subtract _ _) ?_ fun _ _ kept => kept
  rintro more _ ⟨rfl, -⟩
  rw [wp_bind]
  refine wp_mono ((body _ _).increase _ _ _) ?_ fun _ _ kept => kept
  rintro nextAg _ ⟨rfl, -, nextAgFits⟩
  rw [wp_bind]
  refine wp_mono ((body _ _).increase _ _ _) ?_ fun _ _ kept => kept
  rintro free _ ⟨rfl, -, freeFits⟩
  rw [wp_bind]
  refine wp_mono ((body _ _).increase _ _ _) ?_ fun _ _ kept => kept
  rintro rsvd _ ⟨rfl, -, rsvdFits⟩
  rw [wp_bind, wp_modify, wp_bind]
  refine wp_mono ((body _ _).append ?_ ?_ nextAgFits freeFits rsvdFits).persistMap ?_
      fun _ _ kept => kept
  · show ¬ bytes / g.sb.blocksize % 2 ^ 32 = 0
    omega
  · intro s hs
    rw [List.mem_singleton.mp hs]
    exact behind
  · exact fun _ _ kept => kept

theorem pread (labelled : g.Labelled bs top) (off n : Nat) :
    wp (Gofs.pread off n) (fun _ g' => g' = g) (fun _ g' => g'.Labelled bs top) g := by
  unfold wp Gofs.pread
  rcases g.dev.pread off n with m | b
  · exact labelled
  · rfl

theorem copyLoop (labelled : g.Labelled bs top) {src dst total : Nat} (chunk fuel done : Nat)
    (behind : done < total → 2 * g.sb.blocksize ≤ dst) :
    wp (copyLoop src dst total chunk fuel done) (fun _ g' => g'.Labelled bs top ∧ g'.sb = g.sb ∧
    g'.map = g.map)
      (fun _ g' => g'.Labelled bs top) g := by
  induction fuel generalizing g done with
  | zero => exact ⟨labelled, rfl, rfl⟩
  | succ fuel ih =>
      rw [Gofs.copyLoop, wp_ite]
      split
      · rename_i more
        dsimp only
        rw [wp_bind]
        refine wp_mono (labelled.pread _ _) ?_ fun _ _ kept => kept
        rintro buf g rfl
        rw [wp_bind, Gofs.pwrite, wp_modify]
        refine wp_mono (ih (labelled.pwrite (Nat.le_trans (behind more) (Nat.le_add_right _ _)) _ _)
            _
          fun _ => behind more) ?_ fun _ _ kept => kept
        exact fun _ _ kept => kept
      · exact ⟨labelled, rfl, rfl⟩

theorem copySegs (labelled : g.Labelled bs top) {dest : Nat} {segs : List AgSegment}
    (behind : (∃ s ∈ segs, 0 < s.blocks) → 2 * g.sb.blocksize ≤ dest) :
    wp (copySegs dest g.sb.blocksize segs) (fun _ g' => g'.Labelled bs top ∧ g'.sb = g.sb ∧
    g'.map = g.map)
      (fun _ g' => g'.Labelled bs top) g := by
  induction segs generalizing g with
  | nil => exact ⟨labelled, rfl, rfl⟩
  | cons s rest ih =>
      rw [Gofs.copySegs, wp_bind]
      refine wp_mono (labelled.copyLoop _ _ _ fun more => ?_) ?_ fun _ _ kept => kept
      · have some_blocks : 0 < s.blocks := Nat.pos_of_mul_pos_right more
        exact Nat.le_trans (behind ⟨s, List.mem_cons_self, some_blocks⟩) (Nat.le_add_right _ _)
      · rintro _ g₁ ⟨kept, sb, map⟩
        have run := ih kept fun more => by
          obtain ⟨t, member, some_blocks⟩ := more
          rw [sb]
          exact behind ⟨t, List.mem_cons_of_mem _ member, some_blocks⟩
        rw [sb] at run
        refine wp_mono run ?_ fun _ _ kept => kept
        rintro _ g₂ ⟨kept', sb', map'⟩
        exact ⟨kept', sb', map'.trans map⟩

theorem relocate (labelled : g.Labelled bs top) (ag dest : Nat) :
    wp (relocate ag dest) (fun _ g' => g'.Labelled bs top ∧ g'.BackedUp top)
    (fun _ g' => g'.Labelled bs top) g := by
  rw [Gofs.relocate, wp_bind, wp_get]
  dsimp only
  rw [wp_ite]
  split
  · exact labelled
  split
  · exact labelled
  rename_i e entry
  rw [wp_ite]
  split
  · exact labelled
  rw [wp_ite]
  split
  · exact labelled
  rename_i movable
  rw [wp_ite]
  split
  · exact labelled
  rw [wp_ite]
  split
  · exact labelled
  rename_i free
  have later : ag ≠ 0 := by
    rintro rfl
    rw [labelled.zero] at entry
    cases entry
    exact movable
        (decide_eq_true (by decide : (AGF_PRESENT ||| AGF_IMMOVABLE) &&& AGF_IMMOVABLE ≠ 0))
  have filled := labelled.filled e (List.mem_of_getElem? entry)
  have behind : 0 < e.length → 2 * g.sb.blocksize ≤ dest := fun some_length =>
    have large := labelled.large
    labelled.free_behind later (Nat.mul_pos some_length (by omega)) (Bool.eq_false_iff.mpr free)
  rw [wp_bind]
  refine wp_mono (labelled.copySegs fun more => ?_) ?_ fun _ _ kept => kept
  · obtain ⟨s, member, some_blocks⟩ := more
    refine behind (Nat.pos_of_ne_zero fun none => ?_)
    have empty := filled none s member
    omega
  · rintro _ g₁ ⟨kept, sb, map⟩
    rw [wp_bind, Gofs.sync, wp_modify, wp_bind, Gofs.setEntry, wp_modify]
    refine wp_mono (kept.sync.setEntry later ?_ ?_).persistMap ?_ fun _ _ kept => kept
    · intro none s member
      rw [List.mem_singleton.mp member]
      exact none
    · intro s member more
      rw [List.mem_singleton.mp member] at more ⊢
      show 2 * g₁.sb.blocksize ≤ dest
      rw [sb]
      exact behind more
    · exact fun _ _ kept => kept

theorem readAgHeader (labelled : g.Labelled bs top) (ag : Nat) :
    wp (readAgHeader ag) (fun _ g' => g' = g) (fun _ g' => g'.Labelled bs top) g := by
  have still := Numbering.readAgHeader_still ag g
  unfold wp
  rcases run : Gofs.readAgHeader ag g with ⟨e | hdr, g'⟩
  · rw [run] at still
    cases still
    exact labelled
  · rw [run] at still
    exact still

theorem retire (labelled : g.Labelled bs top) (ag : Nat) :
    wp (retire ag) (fun _ g' => g'.Labelled bs top ∧ g'.BackedUp top)
    (fun _ g' => g'.Labelled bs top) g := by
  rw [Gofs.retire, wp_ite]
  split
  · exact labelled
  rename_i later
  rw [wp_bind]
  refine wp_mono (labelled.readAgHeader ag) ?_ fun _ _ kept => kept
  rintro hdr g rfl
  rw [wp_ite]
  split
  · exact labelled
  rw [wp_bind, wp_get]
  split
  · exact labelled
  rename_i e entry
  rw [wp_ite]
  split
  · exact labelled
  have set : Labelled { g with
      map := { g.map with
        entries := g.map.entries.set ag { e with flags := AGF_RETIRED, segs := [] } } } bs top :=
    labelled.setEntry later (fun _ s member => (List.not_mem_nil member).elim)
      fun s member => (List.not_mem_nil member).elim
  rw [wp_bind, Gofs.setEntry, wp_modify, wp_bind, wp_get, wp_bind]
  refine wp_mono (set.subtract _ _) ?_ fun _ _ kept => kept
  rintro free _ ⟨rfl, low⟩
  rw [wp_bind, wp_modify, wp_bind, wp_get, wp_bind]
  have less : Labelled { g with
      sb := { g.sb with freeBlocks := free }
      map := { g.map with
        entries := g.map.entries.set ag { e with flags := AGF_RETIRED, segs := [] } } } bs top :=
    { set with
      fits := { labelled.fits with
        freeBlocks := Nat.lt_of_le_of_lt low labelled.fits.freeBlocks } }
  refine wp_mono (less.subtract _ _) ?_ fun _ _ kept => kept
  rintro rsvd _ ⟨rfl, low'⟩
  rw [wp_bind, wp_modify]
  have least : Labelled { g with
      sb := { g.sb with freeBlocks := free, rsvdBlocks := rsvd }
      map := { g.map with
        entries := g.map.entries.set ag { e with flags := AGF_RETIRED, segs := [] } } } bs top :=
    { less with
      fits := { less.fits with
        rsvdBlocks := Nat.lt_of_le_of_lt low' labelled.fits.rsvdBlocks } }
  exact least.persistMap

theorem resolved (labelled : g.Labelled bs top) {blk off : Nat}
    (found : g.map.resolve blk g.sb.blocksize = some off) :
    2 * g.sb.blocksize ≤ off ∨ (blk < 2 ∧ off = blk * g.sb.blocksize) := by
  unfold AgMap.resolve blkSplit at found
  dsimp only at found
  split at found
  · cases found
  rename_i e entry
  by_cases gone : e.flags &&& AGF_PRESENT = 0 ∨ blk % 2 ^ 32 ≥ e.length
  · rw [if_pos gone] at found
    cases found
  rw [if_neg gone] at found
  obtain ⟨s, seg, rfl⟩ := Option.map_eq_some_iff.mp found
  have inside := List.find?_some seg
  rw [Bool.and_eq_true, decide_eq_true_iff, decide_eq_true_iff] at inside
  by_cases zero : blk / 2 ^ 32 = 0
  · rw [zero, labelled.zero] at entry
    cases entry
    rw [List.mem_singleton.mp (List.mem_of_find?_eq_some seg)]
    have same : blk % 2 ^ 32 = blk := Nat.mod_eq_of_lt (by omega)
    rw [same, Nat.zero_add, Nat.sub_zero]
    by_cases low : blk < 2
    · exact .inr ⟨low, rfl⟩
    · exact .inl (Nat.mul_le_mul_right _ (by omega))
  · have apart := labelled.others _ e zero entry s (List.mem_of_find?_eq_some seg) (by omega)
    exact .inl (Nat.le_trans apart (Nat.le_add_right _ _))

theorem relabel (labelled : g.Labelled bs top) {b : Bytes} (header : HeaderOk top b) :
    Labelled { g with dev := g.dev.pwrite g.sb.blocksize g.sb.blocksize b } bs top := by
  have large := labelled.large
  have sizes : SB_SIZE = 512 ∧ AGHDR_SIZE = 64 := ⟨rfl, rfl⟩
  refine { labelled with
    file := Nat.le_trans labelled.file (Device.pwrite_grows _ _ _ _)
    front := ⟨fun i low high => ?_, header.congr fun i hi => ?_⟩ }
  · have before : i < g.sb.blocksize := high
    show copyAt _ _ _ _ i = 0
    rw [copyAt_of_not_mem (by omega)]
    exact labelled.front.padding i low before
  · show copyAt _ _ _ _ (g.sb.blocksize + i) = b i
    rw [copyAt_of_mem ⟨by omega, by omega⟩, Nat.add_sub_cancel_left]

theorem writeBlock (labelled : g.Labelled bs top) {blk : Nat} {b : Bytes}
    (writable : Writable top blk b) :
    wp (writeBlock blk b) (fun _ g' => g'.Labelled bs top) (fun _ g' => g'.Labelled bs top) g := by
  rw [Gofs.writeBlock, wp_bind, wp_get, wp_bind, Gofs.resolve, wp_bind, wp_get]
  split
  · rename_i off found
    rw [wp_pure, Gofs.pwrite, wp_modify]
    rcases labelled.resolved found with behind | ⟨low, rfl⟩
    · exact labelled.pwrite behind _ _
    · have one : blk = 1 := by
        have later := writable.1
        omega
      rw [one, Nat.one_mul]
      exact labelled.relabel (writable.2 one)
  · exact labelled

theorem applyBlocks (labelled : g.Labelled bs top) {blocks : List (Nat × Bytes)}
    (writable : ∀ b ∈ blocks, Writable top b.1 b.2) :
    wp (applyBlocks blocks) (fun _ g' => g'.Labelled bs top) (fun _ g' => g'.Labelled bs top)
    g := by
  induction blocks generalizing g with
  | nil => exact labelled
  | cons b rest ih =>
      rw [Gofs.applyBlocks, wp_bind]
      refine wp_mono (labelled.writeBlock (writable b List.mem_cons_self)) ?_ fun _ _ kept => kept
      exact fun _ g₁ kept => ih kept fun b member => writable b (List.mem_cons_of_mem _ member)

theorem journalWrite (labelled : g.Labelled bs top) (idx : Nat) (b : Bytes) :
    wp (journalWrite idx b) (fun _ g' => g'.Labelled bs top) (fun _ g' => g'.Labelled bs top)
    g := by
  have start := labelled.journal
  rw [Gofs.journalWrite, wp_bind, wp_get, wp_bind, Gofs.journalPhys, wp_bind, wp_get, wp_ite]
  split
  · exact labelled
  rw [Gofs.resolve, wp_bind, wp_get]
  split
  · rename_i off found
    rw [wp_pure, Gofs.pwrite, wp_modify]
    rcases labelled.resolved found with behind | ⟨low, -⟩
    · exact labelled.pwrite behind _ _
    · omega
  · exact labelled

theorem journalData (labelled : g.Labelled bs top) (idx : Nat) (datas : List Bytes) :
    wp (journalData idx datas) (fun _ g' => g'.Labelled bs top) (fun _ g' => g'.Labelled bs top)
    g := by
  induction datas generalizing g idx with
  | nil => exact labelled
  | cons b rest ih =>
      rw [Gofs.journalData, wp_bind]
      exact wp_mono (labelled.journalWrite idx b) (fun _ g₁ kept => ih kept _) fun _ _ kept => kept

theorem commit (labelled : g.Labelled bs top) {t : Txn}
    (writable : ∀ b ∈ t.blocks, Writable top b.1 b.2) :
    wp (commit t) (fun _ g' => g'.Labelled bs top ∧ (t.blocks ≠ [] → g'.BackedUp top))
    (fun _ g' => g'.Labelled bs top) g := by
  rw [Gofs.commit, wp_ite]
  split
  · rename_i empty
    exact ⟨labelled, fun some_block => absurd (List.isEmpty_iff.mp empty) some_block⟩
  rw [wp_bind, wp_get]
  dsimp only
  rw [wp_ite]
  split
  · exact labelled
  rw [wp_ite]
  split
  · exact labelled
  rw [wp_bind]
  refine wp_mono (labelled.journalWrite _ _) ?_ fun _ _ kept => kept
  intro _ g₁ kept₁
  rw [wp_bind]
  refine wp_mono (kept₁.journalData _ _) ?_ fun _ _ kept => kept
  intro _ g₂ kept₂
  rw [wp_bind]
  refine wp_mono (kept₂.journalWrite _ _) ?_ fun _ _ kept => kept
  intro _ g₃ kept₃
  rw [wp_bind, Gofs.sync, wp_modify, wp_bind]
  refine wp_mono (kept₃.sync.applyBlocks writable) ?_ fun _ _ kept => kept
  intro _ g₄ kept₄
  rw [wp_bind, wp_modify, wp_ite]
  split
  · rw [wp_bind, wp_panicWith]
    exact kept₄.sync
  rename_i seq
  rw [wp_bind, wp_modify]
  have small := kept₄.fits.journalLength
  have head : ∀ n, (if n ≥ g₄.sb.journalLength then 0 else n) < 2 ^ 64 := by
    intro n
    split <;> omega
  refine wp_mono (Labelled.writeSuperblock ?_) (fun _ _ kept => ⟨kept.1, fun _ => kept.2⟩)
      fun _ _ kept => kept
  exact { kept₄ with
    fits := { kept₄.fits with
      journalSeq := Nat.lt_of_not_le seq
      journalHead := head _ } }

theorem setLen (labelled : g.Labelled bs top) {size : Nat} (inside : top * g.sb.blocksize ≤ size) :
    Labelled { g with dev := g.dev.setLen size } bs top := by
  have room := labelled.room
  have large := labelled.large
  have two : 2 * g.sb.blocksize ≤ top * g.sb.blocksize := Nat.mul_le_mul_right _ (by omega)
  refine { labelled with file := inside, front := labelled.front.congr large fun i _ high => ?_ }
  exact if_pos (Nat.lt_of_lt_of_le high (Nat.le_trans two (Nat.le_min.mpr ⟨labelled.file, inside⟩)))

theorem grow (labelled : g.Labelled bs top) (newSize : Nat) :
    wp (grow newSize) (fun _ g' => g'.Labelled bs top ∧ g'.BackedUp top)
    (fun _ g' => g'.Labelled bs top) g := by
  rw [Gofs.grow, wp_bind, wp_get]
  dsimp only
  rw [wp_ite]
  split
  · exact labelled
  rename_i past
  rw [wp_ite]
  split
  · rw [wp_bind, Gofs.setLen, wp_modify]
    have seg : (⟨0, top, 0⟩ : AgSegment) ∈ g.map.segs :=
      List.mem_flatMap.mpr ⟨_, List.mem_of_getElem? labelled.zero, List.mem_singleton_self _⟩
    have inside : _ ≤ g.map.mappedEnd g.sb.blocksize := AgMap.le_mappedEnd seg
    rw [AgSegment.devEnd, Nat.zero_add] at inside
    exact (labelled.setLen (Nat.le_trans inside (Nat.le_of_not_le past))).addAg _ _
  · exact labelled.addAg _ _

theorem evict (labelled : g.Labelled bs top) (ag : Nat) (e : AgEntry) (newSize : Nat) :
    wp (evict ag e newSize) (fun _ g' => g'.Labelled bs top) (fun _ g' => g'.Labelled bs top)
    g := by
  rw [Gofs.evict, wp_ite]
  split
  · exact labelled
  rw [wp_bind]
  refine wp_mono (labelled.readAgHeader ag) ?_ fun _ _ kept => kept
  rintro hdr g rfl
  rw [wp_ite]
  split
  · exact wp_mono (labelled.retire ag) (fun _ _ kept => kept.1) fun _ _ kept => kept
  rw [wp_bind, wp_get]
  split
  · exact labelled
  · exact wp_mono (labelled.relocate ag _) (fun _ _ kept => kept.1) fun _ _ kept => kept

theorem shrinkLoop (labelled : g.Labelled bs top) (newSize fuel : Nat) :
    wp (shrinkLoop newSize fuel) (fun _ g' => g'.Labelled bs top ∧ top * g'.sb.blocksize ≤ newSize)
      (fun _ g' => g'.Labelled bs top) g := by
  induction fuel generalizing g with
  | zero => exact labelled
  | succ fuel ih =>
      rw [Gofs.shrinkLoop, wp_bind, wp_get]
      split
      · rename_i none_beyond
        have present : (AgEntry.mk (AGF_PRESENT ||| AGF_IMMOVABLE) top [⟨0, top, 0⟩]).present :=
          decide_eq_true (by decide : (AGF_PRESENT ||| AGF_IMMOVABLE) &&& AGF_PRESENT ≠ 0)
        have inside := firstBeyond_none none_beyond (List.mem_of_getElem? labelled.zero) present
          (List.mem_singleton_self _)
        rw [AgSegment.devEnd, Nat.zero_add] at inside
        exact ⟨labelled, inside⟩
      · rw [wp_bind]
        exact wp_mono (labelled.evict _ _ _) (fun _ g' kept => ih kept) fun _ _ kept => kept

theorem shrink (labelled : g.Labelled bs top) (newSize : Nat) :
    wp (shrink newSize) (fun _ g' => g'.Labelled bs top) (fun _ g' => g'.Labelled bs top) g := by
  rw [Gofs.shrink, wp_bind, wp_get, wp_bind]
  refine wp_mono (labelled.shrinkLoop _ _) ?_ fun _ _ kept => kept
  rintro _ g' ⟨kept, inside⟩
  rw [Gofs.setLen, wp_modify]
  exact kept.setLen inside

theorem resize (labelled : g.Labelled bs top) (c : ResizeCall) :
    wp c.run (fun _ g' => g'.Labelled bs top ∧ ((∀ n, c ≠ .shrink n) → g'.BackedUp top))
      (fun _ g' => g'.Labelled bs top) g := by
  cases c with
  | grow newSize =>
      rw [ResizeCall.run, wp_bind]
      exact wp_mono (labelled.grow newSize) (fun _ _ kept => ⟨kept.1, fun _ => kept.2⟩)
          fun _ _ kept => kept
  | addAg devOffset bytes =>
      rw [ResizeCall.run, wp_bind]
      exact wp_mono (labelled.addAg devOffset bytes) (fun _ _ kept => ⟨kept.1, fun _ => kept.2⟩)
          fun _ _ kept => kept
  | relocate ag dest =>
      exact wp_mono (labelled.relocate ag dest) (fun _ _ kept => ⟨kept.1, fun _ => kept.2⟩)
          fun _ _ kept => kept
  | retire ag =>
      exact wp_mono (labelled.retire ag) (fun _ _ kept => ⟨kept.1, fun _ => kept.2⟩) fun _ _ kept =>
          kept
  | shrink newSize =>
      exact wp_mono (labelled.shrink newSize) (fun _ _ kept =>
          ⟨kept, fun other => absurd rfl (other newSize)⟩)
        fun _ _ kept => kept

end Labelled

end

end Gofs

namespace Mkfs

variable [Crc32c]

/-- The first two blocks of AG 0 before the superblock is written. -/
def frontBytes (bs : Nat) (hdr : AgHeader) : Bytes := fun i =>
  if i < bs then 0 else clip AGHDR_SIZE hdr.toBytes (i - bs)

theorem metadata_clear (p : MkfsPlan) {next : Nat} (some_block : 0 < next) (rtBlocks : Nat)
    (hdr : AgHeader)
    (table : Bytes) (d : Device) :
    wp (metadata p 0 next 0 rtBlocks hdr table) (fun _ d' => Device.Holds d' 0 p.bs zeros) Fails
    d := by
  have first := zeroBlocks_first p.bs 0 some_block d
  rw [Nat.zero_mul, ← List.range_eq_range'] at first
  rw [metadata, wp_bind]
  refine wp_mono first ?_ fun _ _ _ => trivial
  intro _ d₁ held
  rw [wp_bind, pwrite, wp_modify]
  have header : 0 + p.bs ≤ 0 + hdrBlock 0 * p.bs := by
    rw [hdrBlock, if_pos rfl]
    omega
  refine holds_tableBlocks table (held.pwrite (.inl header) _) ?_
  rw [allocRoot, Nat.add_mul]
  omega

theorem metadata_front (p : MkfsPlan) {next : Nat} (some_block : 0 < next) (rtBlocks : Nat)
    (hdr : AgHeader)
    (table : Bytes) (d : Device) :
    wp (metadata p 0 next 0 rtBlocks hdr table)
      (fun _ d' => Device.Holds d' 0 (2 * p.bs) (frontBytes p.bs hdr)) Fails d := by
  refine wp_mono (wp_and (metadata_clear p some_block rtBlocks hdr table d)
    (metadata_headed p 0 next 0 rtBlocks hdr table d)) ?_ fun _ _ _ => trivial
  rintro _ d' ⟨clear, header⟩
  rw [hdrBlock, if_pos rfl, Nat.zero_add, Nat.one_mul] at header
  have inside := header.inside
  refine ⟨by omega, fun i hi => ?_⟩
  rw [Nat.zero_add, frontBytes]
  split
  · rename_i low
    have same := clear.same i low
    rwa [Nat.zero_add] at same
  · have same := header.same (i - p.bs) (by omega)
    rwa [Nat.add_sub_cancel' (by omega)] at same

theorem agLoop_front (p : MkfsPlan) (large : 2048 ≤ p.bs) (m : MkfsState) (fresh : m.devOff = 0)
    (plain : m.sb.kernelOffset = 0 ∧ m.sb.kernelEnd = 0) (len : Nat) (rest : List Nat)
    (d : Device) :
    wp (agLoop p (len :: rest) 0 m) (fun _ d' => ∃ hdr : AgHeader, hdr.agNum = 0 ∧
    hdr.length = len ∧
      Device.Holds d' 0 (2 * p.bs) (frontBytes p.bs hdr)) Fails d := by
  rw [agLoop, wp_bind, agBody, if_pos rfl]
  refine wp_mono (wp_and (firstAg_wp p len m (Nat.lt_of_lt_of_le (by decide) large) plain d)
    (firstAg_front p len m fresh (Nat.le_of_eq (Nat.zero_add _))
      (fun next hdr table d more => metadata_front p more _ hdr table d) d)) ?_ fun _ _ _ => trivial
  rintro m₁ d₁ ⟨⟨-, ⟨next, head⟩, -, devOff, -⟩, hdr, number, length, held⟩
  have room := head.room
  have root := head.root
  have below : 0 + 2 * p.bs ≤ m₁.devOff := by
    have rows : 2 * p.bs ≤ len * p.bs := Nat.mul_le_mul_right _ (by omega)
    omega
  refine wp_mono (agLoop_frame p rest Nat.one_ne_zero m₁ held below) ?_ fun _ _ _ => trivial
  exact fun _ d₂ held' => ⟨hdr, number, length, held'⟩

theorem fronted_of_holds {d : Device} {bs len : Nat} {hdr : AgHeader} (large : 2048 ≤ bs)
    (small : len < 2 ^ 32)
    (number : hdr.agNum = 0) (length : hdr.length = len)
    (held : Device.Holds d (0 + SB_SIZE) (2 * bs - SB_SIZE) (drop SB_SIZE (frontBytes bs hdr))) :
    Fronted d.bytes bs len := by
  have sizes : SB_SIZE = 512 ∧ AGHDR_SIZE = 64 := ⟨rfl, rfl⟩
  have same : ∀ i, SB_SIZE ≤ i → i < 2 * bs → d.bytes i = frontBytes bs hdr i := by
    intro i low high
    have found := held.same (i - SB_SIZE) (by omega)
    rw [Nat.zero_add, Nat.add_sub_cancel' low] at found
    rw [found, drop, Nat.add_sub_cancel' low]
  refine ⟨fun i low high => ?_, ?_⟩
  · rw [same i low (by omega), frontBytes, if_pos high]
  · have parsed := AgHeader.parse_cut hdr
    rw [number, length, Nat.mod_eq_of_lt small] at parsed
    have header : Gofs.HeaderOk len hdr.toBytes :=
        ⟨_, (AgHeader.parse_clip _).trans parsed, rfl, rfl⟩
    refine header.congr fun i hi => ?_
    rw [drop, same _ (by omega) (by omega), frontBytes, if_neg (by omega), Nat.add_sub_cancel_left]
    exact clip_of_lt _ hi

theorem fronted_wp (p : MkfsPlan) (large : 2048 ≤ p.bs) (blocks : 0 < p.totalBlocks) (d : Device) :
    wp (agLoop p p.lengths 0 { sb := p.proto } >>= finish p)
      (fun _ d' => ∃ len, p.lengths.head? = some len ∧ Fronted d'.bytes p.bs len) Fails d := by
  obtain ⟨len, rest, lengths⟩ := lengths_cons p blocks
  have some_bytes : 0 < p.bs := Nat.lt_of_lt_of_le (by decide) large
  have sizes : SB_SIZE = 512 := rfl
  rw [wp_bind, lengths]
  refine wp_mono (wp_and (agLoop_zero_wp p some_bytes { sb := p.proto } ⟨rfl, rfl⟩ d)
    (agLoop_front p large { sb := p.proto } rfl ⟨rfl, rfl⟩ len rest d)) ?_ fun _ _ _ => trivial
  rintro m d₁ ⟨⟨-, ⟨next, head⟩, entries, sums⟩, hdr, number, length, held⟩
  rw [← lengths] at entries sums
  have looped : Looped p len rest m next := ⟨lengths, head, entries, sums⟩
  obtain ⟨small, -, -, -⟩ := looped.inside
  refine wp_mono (finish_frame p lengths head rfl large small
    (held.part (k := SB_SIZE) (m := 2 * p.bs - SB_SIZE) (by omega)) (.inl ⟨by omega, by omega⟩)) ?_
    fun _ _ _ => trivial
  exact fun _ d₂ kept => ⟨len, rfl, fronted_of_holds large small number length kept⟩

theorem mkfs_fronted {opts : MkfsOpts} {uuid : Nat} {now : Ts} {d d' : Device}
    {summary : MkfsSummary}
    (typed : opts.Typed d uuid) (run : mkfs opts uuid now d = (.ok summary, d')) :
    ∃ sb map top, Image d' sb map ∧ Labels d' sb map top ∧ Fronted d'.bytes sb.blocksize top ∧
      sb.blocksize = opts.blocksize ∧ 2048 ≤ sb.blocksize := by
  obtain ⟨sb, map, image⟩ := mkfs_image typed run
  obtain ⟨sb', map', top, stored, rest⟩ : ∃ sb map top, Gofs.Stored d'.reopen sb map ∧
      Labels d' sb map top ∧ Fronted d'.bytes sb.blocksize top ∧ sb.blocksize = opts.blocksize ∧
        2048 ≤ sb.blocksize := by
    refine wp_ok (mkfs_wp (Q := fun d' => ∃ sb map top, Gofs.Stored d'.reopen sb map ∧
        Labels d' sb map top ∧
      Fronted d'.bytes sb.blocksize top ∧ sb.blocksize = opts.blocksize ∧ 2048 ≤ sb.blocksize) typed
      ?_) run
    rintro p rfl rfl e power large blocks - size
    refine wp_mono (wp_and (labels_wp p power large typed blocks size)
        (fronted_wp p large blocks e)) ?_
      fun _ _ _ => trivial
    rintro _ d' ⟨⟨sb, map, top, stored, labels, blocksize, first⟩, len, first', front⟩
    rw [first] at first'
    cases first'
    exact ⟨sb, map, top, stored, labels, blocksize ▸ front, blocksize, blocksize ▸ large⟩
  have equal := image.stored.found.symm.trans stored.found
  cases equal
  have equal := image.stored.map.symm.trans stored.map
  cases equal
  exact ⟨sb, map, top, image, rest⟩

section

variable {d : Device} {sb : Superblock} {map : AgMap} {top : Nat}

theorem Image.roomy (image : Image d sb map) (labels : Labels d sb map top)
    (large : 2048 ≤ sb.blocksize) :
    2 ≤ sb.journalStart ∧ 3 ≤ top := by
  have behind := image.behind labels
  have header := labels.header
  have copies := image.rooted.copies
  have start : 2 * sb.blocksize ≤ sb.journalStart * sb.blocksize := by omega
  have some_bytes : 0 < sb.blocksize := by omega
  have two := Nat.le_of_mul_le_mul_right start some_bytes
  have last : 2 * sb.blocksize ≤ (top - 1) * sb.blocksize := by omega
  have three := Nat.le_of_mul_le_mul_right last some_bytes
  omega

theorem Image.top_inside (image : Image d sb map) (labels : Labels d sb map top) :
    top * sb.blocksize ≤ d.fileLen := by
  obtain ⟨rest, entries⟩ := labels.first
  have present : (AgEntry.mk (AGF_PRESENT ||| AGF_IMMOVABLE) top [⟨0, top, 0⟩]).present :=
    decide_eq_true (by decide : (AGF_PRESENT ||| AGF_IMMOVABLE) &&& AGF_PRESENT ≠ 0)
  obtain ⟨-, off, only, -, inside⟩ :=
    (image.laid.placed _ (entries ▸ List.mem_cons_self)).of_present present
  cases only
  rwa [Nat.zero_add] at inside

theorem Image.labelled (image : Image d sb map) (labels : Labels d sb map top)
    (large : 2048 ≤ sb.blocksize)
    (front : Fronted d.bytes sb.blocksize top) :
    Gofs.Labelled { dev := d.reopen, sb, map } sb.blocksize top where
  blocksize := rfl
  fits := image.fits
  large := large
  room := (image.roomy labels large).2
  first := labels.first
  filled := fun e member none => absurd (labels.positive e member) (none ▸ Nat.lt_irrefl 0)
  others := by
    intro k e later entry s member more
    rcases image.laid.placed e (List.mem_of_getElem? entry) with ⟨-, -, off, only, -, -⟩ | ⟨-, none⟩
    · have behind := labels.behind k e off entry only later
      have two : 2 * sb.blocksize ≤ top * sb.blocksize :=
        Nat.mul_le_mul_right _ (Nat.le_trans (by decide) (image.roomy labels large).2)
      rw [only] at member
      rw [List.mem_singleton.mp member]
      exact Nat.le_trans two behind
    · rw [none] at member
      exact (List.not_mem_nil member).elim
  agmap := labels.header
  journal := (image.roomy labels large).1
  file := image.top_inside labels
  front := front

end

end Mkfs

namespace Gofs

/-- Length of the first AG. -/
def firstLen (g : Gofs) : Nat :=
  match g.map.entries with
  | [] => 0
  | e :: _ => e.length

variable [Crc32c]

/-- What becomes of a volume mounted as `g₀`: calls that return, with or without an error, writes of
contents behind AG 0's header, counters changed in memory, that the next write of the superblock
stores, and opens that read the AG map back as it is in memory and find nothing to replay; what they
heal is a write of the superblock. -/
inductive Served (g₀ : Gofs) : Gofs → Prop
  | mounted : Served g₀ g₀
  | superblock {g g' : Gofs} {r : Except Err Unit} : Served g₀ g → writeSuperblock g = (r, g') →
      Served g₀ g'
  | commit {g g' : Gofs} {t : Txn} {r : Except Err Unit} : Served g₀ g →
      (∀ b ∈ t.blocks, Writable g.firstLen b.1 b.2) → Gofs.commit t g = (r, g') → Served g₀ g'
  | resize {g g' : Gofs} {c : ResizeCall} {r : Except Err Unit} : Served g₀ g → c.run g = (r, g') →
      Served g₀ g'
  | contents {g : Gofs} {off n : Nat} {b : Bytes} : Served g₀ g → 2 * g.sb.blocksize ≤ off →
      Served g₀ { g with dev := g.dev.pwrite off n b }
  | synced {g : Gofs} : Served g₀ g → Served g₀ { g with dev := g.dev.sync }
  | counters {g : Gofs} {sb : Superblock} : Served g₀ g → sb.Fits → sb.blocksize = g.sb.blocksize →
      sb.agmapOffset = g.sb.agmapOffset → sb.journalStart = g.sb.journalStart →
      Served g₀ { g with sb }
  | remounted {g : Gofs} {sb : Superblock} {fromBackup : Bool} : Served g₀ g →
      findSuperblock g.dev.reopen = .ok (sb, fromBackup) → loadAgmap g.dev.reopen sb = .ok g.map →
      sb.Fits →
      sb.blocksize = g.sb.blocksize → sb.agmapOffset = g.sb.agmapOffset →
      sb.journalStart = g.sb.journalStart →
      Served g₀ { dev := g.dev.reopen, sb, map := g.map }

/-- A call that ends with a write of the superblock. -/
inductive Rewrites (g g' : Gofs) : Prop
  | superblock : writeSuperblock g = (.ok (), g') → Rewrites g g'
  | commit {t : Txn} : t.blocks ≠ [] → (∀ b ∈ t.blocks, Writable g.firstLen b.1 b.2) →
      Gofs.commit t g = (.ok (), g') → Rewrites g g'
  | resize {c : ResizeCall} : (∀ n, c ≠ .shrink n) → c.run g = (.ok (), g') → Rewrites g g'

variable {g₀ g g' : Gofs} {bs top : Nat}

theorem Labelled.firstLen_eq (labelled : g.Labelled bs top) : g.firstLen = top := by
  obtain ⟨rest, entries⟩ := labelled.first
  rw [firstLen, entries]

/-- Another superblock of the same places. -/
theorem Labelled.reread (labelled : g.Labelled bs top) (bytes : g'.dev.bytes = g.dev.bytes)
    (len : g'.dev.fileLen = g.dev.fileLen) (map : g'.map = g.map) (fits : g'.sb.Fits)
    (blocksize : g'.sb.blocksize = g.sb.blocksize) (agmap : g'.sb.agmapOffset = g.sb.agmapOffset)
    (journal : g'.sb.journalStart = g.sb.journalStart) : g'.Labelled bs top where
  blocksize := blocksize.trans labelled.blocksize
  fits
  large := blocksize ▸ labelled.large
  room := labelled.room
  first := map ▸ labelled.first
  filled := map ▸ labelled.filled
  others := by
    rw [map, blocksize]
    exact labelled.others
  agmap := by
    rw [blocksize, agmap]
    exact labelled.agmap
  journal := journal ▸ labelled.journal
  file := by
    rw [blocksize, len]
    exact labelled.file
  front := by
    rw [bytes, blocksize]
    exact labelled.front

omit [Crc32c] in
theorem returned {α : Type} {x : Prog Gofs α} {r : Except Err α} {P : Gofs → Prop}
    (run : wp x (fun _ g' => P g') (fun _ g' => P g') g) (returns : x g = (r, g')) : P g' := by
  unfold wp at run
  rw [returns] at run
  cases r with
  | ok a => exact run
  | error e => exact run

theorem Served.labelled (served : Served g₀ g) (labelled : g₀.Labelled bs top) :
    g.Labelled bs top := by
  induction served with
  | mounted => exact labelled
  | superblock _ returns ih =>
      exact returned (wp_mono ih.writeSuperblock (fun _ _ kept => kept.1) fun _ _ kept => kept)
          returns
  | commit _ writable returns ih =>
      rw [ih.firstLen_eq] at writable
      exact returned (wp_mono (ih.commit writable) (fun _ _ kept => kept.1) fun _ _ kept => kept)
          returns
  | resize _ returns ih =>
      exact returned (wp_mono (ih.resize _) (fun _ _ kept => kept.1) fun _ _ kept => kept) returns
  | contents _ behind ih => exact ih.pwrite behind _ _
  | synced _ ih => exact ih.sync
  | counters _ fits blocksize agmap journal ih =>
      exact ih.reread rfl rfl rfl fits blocksize agmap journal
  | remounted _ _ _ fits blocksize agmap journal ih =>
      exact ih.reread rfl rfl rfl fits blocksize agmap journal

theorem Rewrites.backedUp (rewrites : Rewrites g g') (labelled : g.Labelled bs top) :
    g'.Labelled bs top ∧ g'.BackedUp top := by
  cases rewrites with
  | superblock run =>
      obtain ⟨kept, stored⟩ := wp_ok labelled.writeSuperblock run
      exact ⟨kept, stored⟩
  | commit some_block writable run =>
      rw [labelled.firstLen_eq] at writable
      obtain ⟨kept, stored⟩ := wp_ok (labelled.commit writable) run
      exact ⟨kept, stored some_block⟩
  | resize other run =>
      obtain ⟨kept, stored⟩ := wp_ok (labelled.resize _) run
      exact ⟨kept, stored other⟩

theorem Labelled.recovers (labelled : g.Labelled bs top) (stored : g.BackedUp top) :
    Recovers g.dev g.sb ↔ bs ≤ 65536 := by
  rw [← labelled.blocksize]
  exact recovers_iff labelled.fits labelled.large (Nat.le_trans (by decide) labelled.room)
      labelled.file labelled.front
    stored

end Gofs

section

variable [Crc32c] {opts : MkfsOpts} {uuid : Nat} {now : Ts} {d d' : Device} {summary : MkfsSummary}

theorem Mkfs.mkfs_recovers (typed : opts.Typed d uuid)
    (made : Mkfs.mkfs opts uuid now d = (.ok summary, d')) :
    ∃ sb map top, Gofs.openRw d'.reopen = .ok { dev := d'.reopen, sb, map } ∧
      Gofs.findSuperblock d'.reopen = .ok (sb, false) ∧
      Gofs.Labelled { dev := d'.reopen, sb, map } opts.blocksize top ∧
      (Recovers d'.reopen sb ↔ opts.blocksize ≤ 65536) := by
  obtain ⟨sb, map, top, image, labels, front, same, large⟩ := Mkfs.mkfs_fronted typed made
  have labelled := image.labelled labels large front
  rw [same] at labelled
  exact ⟨sb, map, top, image.mounts labels, image.stored.found, labelled,
      labelled.recovers labels.copies.backup.reopen⟩

/-- After mkfs and after every write of the superblock, the backup is found exactly if the block
size is among those that are probed. -/
theorem backup_found_iff (typed : opts.Typed d uuid)
    (made : Mkfs.mkfs opts uuid now d = (.ok summary, d')) :
    (∃ sb, Gofs.findSuperblock d'.reopen = .ok (sb, false) ∧
    (Recovers d'.reopen sb ↔ opts.blocksize ≤ 65536)) ∧
      ∀ g₀ g g', Gofs.openRw d'.reopen = .ok g₀ → Gofs.Served g₀ g → Gofs.Rewrites g g' →
        (Recovers g'.dev g'.sb ↔ opts.blocksize ≤ 65536) := by
  obtain ⟨sb, map, top, mounts, found, labelled, recovers⟩ := Mkfs.mkfs_recovers typed made
  refine ⟨⟨sb, found, recovers⟩, fun g₀ g g' opened served rewrites => ?_⟩
  cases mounts.symm.trans opened
  obtain ⟨kept, stored⟩ := rewrites.backedUp (served.labelled labelled)
  exact kept.recovers stored

end

/-- A volume of the smallest size at twice the largest block size probed. -/
def wideOpts : MkfsOpts :=
  { size := some (128 <<< 20), blocksize := 131072, inodesize := 8192, journal := some (1 <<< 20) }

theorem wideOpts_typed : wideOpts.Typed emptyFile 0 := by
  refine ⟨by decide, by decide, fun s h => ?_, fun j h => ?_, fun u h => ?_,
      fun k h => ?_, by decide, by decide⟩
  · cases h
    decide
  · cases h
    decide
  · cases h
  · cases h

theorem wide_made : ∃ summary d', @Mkfs.mkfs castagnoli wideOpts 0 ⟨0, 0⟩
    emptyFile = (.ok summary, d') := by
  have done : (match (@Mkfs.mkfs castagnoli wideOpts 0 ⟨0, 0⟩ emptyFile).1 with
      | .ok _ => true
      | .error _ => false) = true := by decide +kernel
  rcases run : @Mkfs.mkfs castagnoli wideOpts 0 ⟨0, 0⟩ emptyFile with ⟨e | summary, d'⟩
  · rw [run] at done
    cases done
  · exact ⟨summary, d', rfl⟩

/-- mkfs accepts block sizes at which the search misses the backup. -/
theorem backup_not_found : ¬ ∀ (opts : MkfsOpts) (uuid : Nat) (now : Ts) (d d' : Device)
    (summary : MkfsSummary),
    opts.Typed d uuid → @Mkfs.mkfs castagnoli opts uuid now d = (.ok summary, d') →
      ∃ sb, @Gofs.findSuperblock castagnoli d'.reopen = .ok (sb, false) ∧
      @Recovers castagnoli d'.reopen sb := by
  let crc := castagnoli
  intro always
  obtain ⟨summary, d', made⟩ := wide_made
  obtain ⟨sb, map, top, -, found, -, recovers⟩ := Mkfs.mkfs_recovers wideOpts_typed made
  obtain ⟨sb', found', holds⟩ := always wideOpts 0 ⟨0, 0⟩ emptyFile d' summary wideOpts_typed made
  cases found.symm.trans found'
  exact absurd (recovers.mp holds) (by decide)

/-- The small image: the superblock is written, synced and written again. -/
theorem backup_found_small : ∃ g₁ g₂, @Gofs.writeSuperblock castagnoli imageMount = (.ok (), g₁) ∧
    @Gofs.writeSuperblock castagnoli { g₁ with dev := g₁.dev.sync } = (.ok (), g₂) ∧
    @Recovers castagnoli g₂.dev g₂.sb := by
  let crc := castagnoli
  obtain ⟨summary, made⟩ := smallImage_made
  obtain ⟨image, labels⟩ := smallImage_labels
  have first := Gofs.writeSuperblock_rooted (g := imageMount) rfl (by decide)
  have start : Gofs.Served imageMount imageMount := .mounted
  have served := Gofs.Served.synced (.superblock start first)
  have second := Gofs.writeSuperblock_rooted (g := { imageMount with
    sb := Gofs.bumped imageMount.sb
    dev := ((imageMount.dev.pwrite 0 SB_SIZE (Gofs.bumped imageMount.sb).toBytes).pwrite
    ((1024 - 1) * imageMount.sb.blocksize)
      SB_SIZE (Gofs.bumped imageMount.sb).toBytes).sync }) rfl (by decide)
  exact ⟨_, _, first, second, ((backup_found_iff smallOpts_typed made).2 _ _ _ (image.mounts labels)
      served (.superblock second)).mpr
    (by decide)⟩

end FiveFs
