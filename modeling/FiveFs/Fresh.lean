import FiveFs.Mkfs
import FiveFs.Reopen

/-! A fresh image: what mkfs wrote is what the first open finds. -/

namespace FiveFs

open Buffer Prog

/-- The bounds of the machine types: file offsets are `i64`, slices are at most `isize::MAX` long.
-/
structure MkfsOpts.Typed (opts : MkfsOpts) (d : Device) (uuid : Nat) : Prop where
  blocksize : opts.blocksize < 2 ^ 32
  inodesize : opts.inodesize < 2 ^ 16
  size : ∀ s, opts.size = some s → s < 2 ^ 63
  journal : ∀ j, opts.journal = some j → j < 2 ^ 63
  label : ∀ u ∈ opts.label, u < 2 ^ 16
  kernel : ∀ k, opts.kernel = some k → k.1 < 2 ^ 63
  file : d.fileLen < 2 ^ 63
  uuid : uuid < 2 ^ 128

namespace Mkfs

/-- The AG map entries of AGs laid out one after the other. -/
def laidOut (bs : Nat) : Nat → Nat → List Nat → List AgEntry
  | _, _, [] => []
  | ag, off, len :: rest => entryOf ag len off :: laidOut bs (ag + 1) (off + len * bs) rest

/-- Any failure. -/
abbrev Fails (_ : Err) (_ : Device) : Prop := True

theorem zeroBlocks_wp (devOff bs : Nat) (is : List Nat) (d : Device) :
    wp (zeroBlocks devOff bs is) (fun _ d' => d.fileLen ≤ d'.fileLen) Fails d := by
  induction is generalizing d with
  | nil => exact Nat.le_refl _
  | cons i rest ih =>
      rw [zeroBlocks, wp_bind, pwrite, wp_modify]
      apply wp_mono (ih _)
      · exact fun _ d' grows => Nat.le_trans (Device.pwrite_grows d _ _ _) grows
      · exact fun _ _ _ => trivial

theorem tableBlocks_wp (devOff bs root : Nat) (table : Bytes) (is : List Nat) (d : Device) :
    wp (tableBlocks devOff bs root table is) (fun _ d' => d.fileLen ≤ d'.fileLen) Fails d := by
  induction is generalizing d with
  | nil => exact Nat.le_refl _
  | cons i rest ih =>
      rw [tableBlocks, wp_bind, pwrite, wp_modify]
      apply wp_mono (ih _)
      · exact fun _ d' grows => Nat.le_trans (Device.pwrite_grows d _ _ _) grows
      · exact fun _ _ _ => trivial

theorem subtract_wp (a b : Nat) (d : Device) :
    wp (subtract a b) (fun r d' => d' = d ∧ b ≤ a ∧ r = a - b) Fails d := by
  rw [subtract, wp_ite]
  split
  · rename_i small
    exact ⟨rfl, small, rfl⟩
  · trivial

variable [Crc32c]

theorem metadata_wp (p : MkfsPlan) (ag next devOff rtBlocks : Nat) (hdr : AgHeader) (table : Bytes)
    (d : Device) :
    wp (metadata p ag next devOff rtBlocks hdr table) (fun _ d' => d.fileLen ≤ d'.fileLen) Fails
    d := by
  rw [metadata, wp_bind]
  apply wp_mono (zeroBlocks_wp _ _ _ d)
  · intro _ d₁ grows
    rw [wp_bind, pwrite, wp_modify]
    apply wp_mono (tableBlocks_wp _ _ _ _ _ _)
    · exact fun _ d' grows' => Nat.le_trans grows
          (Nat.le_trans (Device.pwrite_grows d₁ _ _ _) grows')
    · exact fun _ _ _ => trivial
  · exact fun _ _ _ => trivial

theorem kernelFile_wp (p : MkfsPlan) (kernelStart devOff inoHint rootIno : Nat) (root : Inode)
    (kernel : Option (Nat × Bytes)) (d : Device) :
    wp (kernelFile p kernelStart devOff inoHint rootIno root kernel)
      (fun _ d' => d.fileLen ≤ d'.fileLen) Fails d := by
  cases kernel with
  | none => exact Nat.le_refl _
  | some image =>
      rw [kernelFile, wp_bind, pwrite, wp_modify, wp_bind, wp_ofResult]
      split
      · rw [wp_bind, pwrite, wp_modify, wp_bind, wp_ofResult]
        split
        · exact Nat.le_trans (Device.pwrite_grows d _ _ _) (Device.pwrite_grows _ _ _ _)
        · trivial
      · trivial

/-- Where the head of AG 0 puts the AG map copies and the journal. -/
structure Head (p : MkfsPlan) (agLen : Nat) (m m' : MkfsState) (next : Nat) : Prop where
  root : 3 ≤ next
  agmap : m'.sb.agmapOffset = m.devOff + next * p.bs
  journal : m'.sb.journalStart = next + 2 * p.agmapBlocks % 2 ^ 32
  room : next + 2 * p.agmapBlocks % 2 ^ 32 + p.journalBlocks % 2 ^ 32 + 3 * CELL_BLOCKS < agLen
  kernel : m'.sb.kernelOffset ≤ agLen * p.bs ∧ m'.sb.kernelEnd ≤ agLen * p.bs + p.kernelLen
  rest : m'.sb = { m.sb with
    agmapOffset := m'.sb.agmapOffset
    journalStart := m'.sb.journalStart
    kernelOffset := m'.sb.kernelOffset
    kernelEnd := m'.sb.kernelEnd }
  ino : m'.rootIno ≤ agLen * p.slots

/-- What the loop has added up. -/
structure Sums (m m' : MkfsState) (blocks : Nat) : Prop where
  free : m'.totalFree ≤ m.totalFree + blocks
  rsvd : m'.totalRsvd ≤ m.totalRsvd + blocks
  full : m'.totalFull ≤ m.totalFull + blocks

omit [Crc32c] in
theorem Sums.trans {m m' m'' : MkfsState} {a b : Nat} (h : Sums m m' a) (h' : Sums m' m'' b) :
    Sums m m'' (a + b) := by
  have free := h.free
  have free' := h'.free
  have rsvd := h.rsvd
  have rsvd' := h'.rsvd
  have full := h.full
  have full' := h'.full
  exact ⟨by omega, by omega, by omega⟩

omit [Crc32c] in
theorem head0_spec (p : MkfsPlan) (agLen : Nat) (m : MkfsState)
    (root : 0 < (rtGeometry agLen p.bs).2)
    (small : (head0 p (allocRoot 0 + (rtGeometry agLen p.bs).2) m.devOff m.sb).1 + 3 *
    CELL_BLOCKS < agLen)
    (plain : m.sb.kernelOffset = 0 ∧ m.sb.kernelEnd = 0) {m' : MkfsState}
    (sb : m'.sb = (head0 p (allocRoot 0 + (rtGeometry agLen p.bs).2) m.devOff m.sb).2.2)
    (ino : m'.rootIno ≤ agLen * p.slots) :
    Head p agLen m m' (2 + (rtGeometry agLen p.bs).2) := by
  have first : allocRoot 0 + (rtGeometry agLen p.bs).2 = 2 + (rtGeometry agLen p.bs).2 := rfl
  rw [first] at small sb
  simp only [head0] at small sb
  split at sb
  · rename_i some_kernel
    rw [if_pos some_kernel] at small
    have bound : (2 + (rtGeometry agLen p.bs).2 + 2 * p.agmapBlocks % 2 ^ 32 +
        p.journalBlocks % 2 ^ 32) * p.bs ≤ agLen * p.bs := Nat.mul_le_mul_right _ (by omega)
    refine ⟨by omega, ?_, ?_, by omega, ?_, ?_, ino⟩
    · rw [sb]
    · rw [sb, blkAddr, Nat.zero_mul, Nat.zero_add]
    · rw [sb]
      exact ⟨bound, Nat.add_le_add_right bound _⟩
    · rw [sb]
  · rename_i no_kernel
    rw [if_neg no_kernel] at small
    refine ⟨by omega, ?_, ?_, by omega, ?_, ?_, ino⟩
    · rw [sb]
    · rw [sb, blkAddr, Nat.zero_mul, Nat.zero_add]
    · rw [sb]
      simp [plain]
    · rw [sb]

omit [Crc32c] in
theorem rootIno_le {next agLen slots : Nat} (room : next + 3 * CELL_BLOCKS < agLen) :
    inoAddr 0 ((divCeil next CELL_BLOCKS + 1) * CELL_BLOCKS * slots) ≤ agLen * slots := by
  rw [inoAddr, blkAddr, Nat.zero_mul, Nat.zero_add]
  apply Nat.mul_le_mul_right
  rw [CELL_BLOCKS] at room ⊢
  rw [divCeil]
  omega

omit [Crc32c] in
theorem rtGeometry_pos {agLen bs : Nat} (some_block : 0 < agLen) (large : 0 < bs) :
    0 < (rtGeometry agLen bs).2 := by
  have cells : 0 < (agLen + CELL_BLOCKS - 1) / CELL_BLOCKS := by
    rw [CELL_BLOCKS]
    omega
  apply Nat.div_pos _ large
  omega

theorem firstAg_wp (p : MkfsPlan) (agLen : Nat) (m : MkfsState) (large : 0 < p.bs)
    (plain : m.sb.kernelOffset = 0 ∧ m.sb.kernelEnd = 0) (d : Device) :
    wp (firstAg p agLen m) (fun m' d' => d.fileLen ≤ d'.fileLen ∧ (∃ next, Head p agLen m m' next) ∧
      m'.entries = m.entries ++ [entryOf 0 agLen m.devOff] ∧ m'.devOff = m.devOff + agLen * p.bs ∧
      Sums m m' agLen) Fails d := by
  rw [firstAg]
  dsimp only
  rw [wp_ite]
  split
  · trivial
  · rename_i roomy
    rw [wp_ite]
    split
    · trivial
    · rename_i cellsFit
      rw [wp_bind, pwrite, wp_modify, wp_bind]
      apply wp_mono (subtract_wp _ _ _)
      · rintro freeCells d₁ ⟨rfl, -, -⟩
        rw [wp_bind]
        apply wp_mono (subtract_wp _ _ _)
        · rintro rsvd d₂ ⟨rfl, small, rest⟩
          rw [wp_bind]
          apply wp_mono (metadata_wp _ _ _ _ _ _ _ _)
          · intro _ d₃ grows
            rw [wp_bind, pwrite, wp_modify, wp_bind]
            apply wp_mono (kernelFile_wp _ _ _ _ _ _ _ _)
            · intro root d₄ grows'
              rw [wp_bind, pwrite, wp_modify, wp_pure]
              have some_block : 0 < agLen := by omega
              refine ⟨?_, ⟨_, head0_spec p agLen m (rtGeometry_pos some_block large)
                (Nat.lt_of_not_le roomy) plain rfl ?_⟩, rfl, rfl, ?_⟩
              · exact Nat.le_trans (Device.pwrite_grows d _ _ _) (Nat.le_trans grows (Nat.le_trans
                  (Device.pwrite_grows _ _ _ _) (Nat.le_trans grows'
                  (Device.pwrite_grows _ _ _ _))))
              · exact rootIno_le (Nat.lt_of_not_le roomy)
              · exact ⟨by show _ + _ ≤ _; omega, by show _ + _ ≤ _; omega, by show _ + _ ≤ _; omega⟩
            · exact fun _ _ _ => trivial
          · exact fun _ _ _ => trivial
        · exact fun _ _ _ => trivial
      · exact fun _ _ _ => trivial

/-- What the loop body for AG `ag > 0` leaves alone. -/
structure Next (bs : Nat) (m m' : MkfsState) (entries : List AgEntry) (blocks : Nat) : Prop where
  entries : m'.entries = m.entries ++ entries
  devOff : m'.devOff = m.devOff + blocks * bs
  sb : m'.sb = m.sb
  rootIno : m'.rootIno = m.rootIno
  sums : Sums m m' blocks

omit [Crc32c] in
theorem Next.trans {bs : Nat} {m m' m'' : MkfsState} {es es' : List AgEntry} {a b : Nat}
    (h : Next bs m m' es a) (h' : Next bs m' m'' es' b) : Next bs m m'' (es ++ es') (a + b) where
  entries := by rw [h'.entries, h.entries, List.append_assoc]
  devOff := by rw [h'.devOff, h.devOff, Nat.add_mul, Nat.add_assoc]
  sb := h'.sb.trans h.sb
  rootIno := h'.rootIno.trans h.rootIno
  sums := h.sums.trans h'.sums

theorem nextAg_wp (p : MkfsPlan) (ag agLen : Nat) (m : MkfsState) (d : Device) :
    wp (nextAg p ag agLen m) (fun m' d' => d.fileLen ≤ d'.fileLen ∧
      Next p.bs m m' [entryOf ag agLen m.devOff] agLen) Fails d := by
  rw [nextAg]
  dsimp only
  rw [wp_bind]
  apply wp_mono (subtract_wp _ _ _)
  · rintro freeCells d₁ ⟨rfl, -, -⟩
    rw [wp_bind]
    apply wp_mono (subtract_wp _ _ _)
    · rintro rsvd d₂ ⟨rfl, small, rest⟩
      rw [wp_bind]
      apply wp_mono (metadata_wp _ _ _ _ _ _ _ _)
      · intro _ d₃ grows
        rw [wp_pure]
        refine ⟨grows, rfl, rfl, rfl, rfl, ?_⟩
        exact ⟨by show _ + _ ≤ _; omega, by show _ + _ ≤ _; omega, Nat.le_add_right _ _⟩
      · exact fun _ _ _ => trivial
    · exact fun _ _ _ => trivial
  · exact fun _ _ _ => trivial

theorem agLoop_wp (p : MkfsPlan) (lens : List Nat) {ag : Nat} (later : ag ≠ 0) (m : MkfsState)
    (d : Device) : wp (agLoop p lens ag m) (fun m' d' => d.fileLen ≤ d'.fileLen ∧
      Next p.bs m m' (laidOut p.bs ag m.devOff lens) lens.sum) Fails d := by
  induction lens generalizing ag m d with
  | nil =>
      refine ⟨Nat.le_refl _, ?_, ?_, rfl, rfl, ?_⟩
      · rw [laidOut, List.append_nil]
      · rw [List.sum_nil, Nat.zero_mul, Nat.add_zero]
      · exact ⟨Nat.le_refl _, Nat.le_refl _, Nat.le_refl _⟩
  | cons len rest ih =>
      rw [agLoop, wp_bind, agBody, if_neg later]
      apply wp_mono (nextAg_wp p ag len m d)
      · rintro m₁ d₁ ⟨grows, next⟩
        apply wp_mono (ih (Nat.succ_ne_zero ag) m₁ d₁)
        · rintro m₂ d₂ ⟨grows', next'⟩
          have both := next.trans next'
          rw [next.devOff] at both
          exact ⟨Nat.le_trans grows grows', both⟩
        · exact fun _ _ _ => trivial
      · exact fun _ _ _ => trivial

theorem agLoop_zero_wp (p : MkfsPlan) (large : 0 < p.bs) (m : MkfsState)
    (plain : m.sb.kernelOffset = 0 ∧ m.sb.kernelEnd = 0) {len : Nat} {rest : List Nat}
    (d : Device) :
    wp (agLoop p (len :: rest) 0 m) (fun m' d' => d.fileLen ≤ d'.fileLen ∧
      (∃ next, Head p len m m' next) ∧ m'.entries = m.entries ++ laidOut p.bs 0 m.devOff
      (len :: rest) ∧
      Sums m m' (len :: rest).sum) Fails d := by
  rw [agLoop, wp_bind, agBody, if_pos rfl]
  apply wp_mono (firstAg_wp p len m large plain d)
  · rintro m₁ d₁ ⟨grows, ⟨next, head⟩, entries, devOff, sums⟩
    apply wp_mono (agLoop_wp p rest Nat.one_ne_zero m₁ d₁)
    · rintro m₂ d₂ ⟨grows', later⟩
      refine ⟨Nat.le_trans grows grows', ⟨next, ?_⟩, ?_, sums.trans later.sums⟩
      · obtain ⟨root, agmap, journal, room, kernel, unchanged, ino⟩ := head
        rw [← later.sb] at agmap journal kernel unchanged
        rw [← later.rootIno] at ino
        exact ⟨root, agmap, journal, room, kernel, unchanged, ino⟩
      · rw [later.entries, entries, devOff, List.append_assoc]
        rfl
    · exact fun _ _ _ => trivial
  · exact fun _ _ _ => trivial

section

omit [Crc32c]

variable {bs size : Nat}

theorem mem_agLengths {maxAg fuel remaining len : Nat}
    (member : len ∈ agLengths maxAg fuel remaining) :
    len < 2 ^ 32 := by
  induction fuel generalizing remaining with
  | zero => cases member
  | succ fuel ih =>
      rw [agLengths] at member
      split at member
      · cases member
      · dsimp only at member
        split at member
        · rw [List.mem_singleton.mp member]
          exact Nat.mod_lt _ (by decide)
        · rcases List.mem_cons.mp member with rfl | later
          · exact Nat.mod_lt _ (by decide)
          · exact ih later

theorem agLengths_sum (maxAg fuel remaining : Nat) :
    (agLengths maxAg fuel remaining).sum ≤ remaining := by
  induction fuel generalizing remaining with
  | zero => exact Nat.zero_le _
  | succ fuel ih =>
      rw [agLengths]
      split
      · exact Nat.zero_le _
      · dsimp only
        split
        · rw [List.sum_singleton]
          exact Nat.mod_le _ _
        · rw [List.sum_cons]
          have first := Nat.mod_le (min remaining maxAg) (2 ^ 32)
          have rest := ih (remaining - min remaining maxAg)
          omega

theorem entryOf_placed {ag len off : Nat} (small : len < 2 ^ 32) (aligned : off % bs = 0)
    (inside : off + len * bs ≤ size) : (entryOf ag len off).Placed bs size := by
  refine .inl ⟨?_, small, off, rfl, aligned, inside⟩
  by_cases first : ag = 0
  · exact .inr (by rw [entryOf, if_pos first])
  · exact .inl (by rw [entryOf, if_neg first]; rfl)

theorem mem_laidOut {ag off : Nat} {lens : List Nat} {e : AgEntry}
    (member : e ∈ laidOut bs ag off lens) :
    ∃ i len start, e = entryOf i len start ∧ len ∈ lens ∧ start % bs = off % bs ∧ off ≤ start ∧
      start + len * bs ≤ off + lens.sum * bs := by
  induction lens generalizing ag off with
  | nil => cases member
  | cons len rest ih =>
      rw [List.sum_cons, Nat.add_mul]
      rcases List.mem_cons.mp member with rfl | later
      · exact ⟨ag, len, off, rfl, List.mem_cons_self, rfl, Nat.le_refl _, by omega⟩
      · obtain ⟨i, len', start, same, among, aligned, low, high⟩ := ih later
        refine ⟨i, len', start, same, List.mem_cons_of_mem _ among, ?_, by omega, by omega⟩
        rw [aligned, Nat.add_mul_mod_self_right]

theorem laidOut_apart (ag off : Nat) (lens : List Nat) :
    (laidOut bs ag off lens).Pairwise (AgEntry.Apart bs) := by
  induction lens generalizing ag off with
  | nil => exact List.Pairwise.nil
  | cons len rest ih =>
      refine List.Pairwise.cons ?_ (ih _ _)
      intro e member s hs t ht
      cases List.mem_singleton.mp hs
      obtain ⟨i, len', start, rfl, -, -, low, -⟩ := mem_laidOut member
      cases List.mem_singleton.mp ht
      exact .inl low

theorem laidOut_laid {gen : Nat} {lens : List Nat} (small : ∀ len ∈ lens, len < 2 ^ 32)
    (inside : lens.sum * bs ≤ size) : (AgMap.mk gen (laidOut bs 0 0 lens)).Laid bs size := by
  refine ⟨fun e member => ?_, laidOut_apart 0 0 lens⟩
  obtain ⟨i, len, start, rfl, among, aligned, -, high⟩ := mem_laidOut member
  exact entryOf_placed (small len among) (aligned.trans (Nat.zero_mod _)) (by omega)

theorem laidOut_length (ag off : Nat) (lens : List Nat) :
    (laidOut bs ag off lens).length = lens.length := by
  induction lens generalizing ag off with
  | nil => rfl
  | cons len rest ih => exact congrArg (· + 1) (ih _ _)

end

section

omit [Crc32c]

theorem holds_zeroBlocks {off n : Nat} {b : Bytes} {devOff bs : Nat} {is : List Nat} {d : Device}
    (h : Device.Holds d off n b) (apart : ∀ i ∈ is, off + n ≤ devOff + i * bs ∨
    devOff + i * bs + bs ≤ off) :
    wp (zeroBlocks devOff bs is) (fun _ d' => Device.Holds d' off n b) Fails d := by
  induction is generalizing d with
  | nil => exact h
  | cons i rest ih =>
      rw [Mkfs.zeroBlocks, wp_bind, Mkfs.pwrite, wp_modify]
      exact ih (h.pwrite (apart i List.mem_cons_self) zeros)
        fun j hj => apart j (List.mem_cons_of_mem _ hj)

theorem zeroBlocks_first (bs start : Nat) {n : Nat} (some_blocks : 0 < n) (d : Device) :
    wp (Mkfs.zeroBlocks 0 bs (List.range' start n))
    (fun _ d' => Device.Holds d' (start * bs) bs zeros) Fails d := by
  obtain ⟨k, rfl⟩ := Nat.exists_eq_succ_of_ne_zero (Nat.pos_iff_ne_zero.mp some_blocks)
  rw [List.range'_succ, Mkfs.zeroBlocks, wp_bind, Mkfs.pwrite, wp_modify, Nat.zero_add]
  apply holds_zeroBlocks (Device.holds_pwrite d (start * bs) bs zeros)
  intro i member
  left
  rw [Nat.zero_add, ← Nat.succ_mul]
  exact Nat.mul_le_mul_right _ (List.mem_range'_1.mp member).1

end

omit [Crc32c] in
theorem Head.regions {p : MkfsPlan} {agLen : Nat} {m m' : MkfsState} {next : Nat}
    (head : Head p agLen m m' next) (fresh : m.devOff = 0) (large : 2048 ≤ p.bs)
    (small : agLen < 2 ^ 32) : p.bs ≤ m'.sb.agmapOffset ∧
      m'.sb.journalStart % 2 ^ 32 = m'.sb.journalStart ∧
      m'.sb.agmapOffset + AGMAP_BYTES + AGMAP_BYTES ≤ m'.sb.journalStart * p.bs ∧
      m'.sb.journalStart * p.bs + p.bs ≤ (agLen - 1) * p.bs ∧
      agLen * p.bs = (agLen - 1) * p.bs + p.bs := by
  have room := head.room
  have fits : 2 * p.agmapBlocks % 2 ^ 32 = 2 * p.agmapBlocks := by
    apply Nat.mod_eq_of_lt
    have blocks : p.agmapBlocks ≤ AGMAP_BYTES := by
      rw [MkfsPlan.agmapBlocks, divCeil]
      apply Nat.div_le_of_le_mul
      have rows : 1 * AGMAP_BYTES ≤ p.bs * AGMAP_BYTES := Nat.mul_le_mul_right _ (by omega)
      rw [AGMAP_BYTES] at rows ⊢
      omega
    rw [AGMAP_BYTES] at blocks
    omega
  have copies : AGMAP_BYTES ≤ p.agmapBlocks * p.bs := by
    rw [MkfsPlan.agmapBlocks, divCeil]
    have ceil := Nat.div_add_mod (AGMAP_BYTES + p.bs - 1) p.bs
    have rest := Nat.mod_lt (AGMAP_BYTES + p.bs - 1) (show 0 < p.bs by omega)
    rw [Nat.mul_comm] at ceil
    omega
  have start := head.journal
  have behind := head.agmap
  rw [fits] at room start
  have rows : 1 * p.bs ≤ next * p.bs := Nat.mul_le_mul_right _ (Nat.le_trans (by decide) head.root)
  refine ⟨?_, Nat.mod_eq_of_lt (by rw [CELL_BLOCKS] at room; omega), ?_, ?_, ?_⟩
  · rw [behind]
    omega
  · rw [behind, start, Nat.add_mul, Nat.mul_assoc, fresh]
    omega
  · rw [← Nat.succ_mul]
    apply Nat.mul_le_mul_right
    rw [CELL_BLOCKS] at room
    omega
  · rw [← Nat.succ_mul]
    congr 1
    omega

/-- The copies of the AG map and of the superblock. -/
structure Copies (d : Device) (sb : Superblock) (map : AgMap) (last : Nat) : Prop where
  map : ∃ b, map.toBytes sb.agmapLength = .ok b ∧ Device.Holds d sb.agmapOffset sb.agmapLength b ∧
    Device.Holds d (sb.agmapOffset + sb.agmapLength) sb.agmapLength b
  primary : Device.Holds d 0 SB_SIZE sb.toBytes
  backup : Device.Holds d last SB_SIZE sb.toBytes

/-- What is stored at the end of mkfs. -/
theorem finish_wp (p : MkfsPlan) {sb : Superblock} {agLen : Nat} {rest : List Nat}
    {m₀ m : MkfsState} {next : Nat}
    (lengths : p.lengths = agLen :: rest) (head : Head p agLen m₀ m next) (fresh : m₀.devOff = 0)
    (capacity : m.sb.agmapLength = AGMAP_BYTES) (large : 2048 ≤ p.bs) (small : agLen < 2 ^ 32)
    (counted : sb = { m.sb with
      rootIno := m.rootIno
      freeBlocks := m.totalFree
      rsvdBlocks := m.totalRsvd
      fullBlocks := m.totalFull })
    (fits : m.entries.length * 8 ≤ AGMAP_BYTES → sb.Fits)
    (mapFits : m.entries.length * 8 ≤ AGMAP_BYTES → (AgMap.mk 1 m.entries).Fits) (d : Device) :
    wp (finish p m) (fun _ d' => m.entries.length * 8 ≤ AGMAP_BYTES ∧ d.fileLen ≤ d'.fileLen ∧
      Gofs.Stored d'.reopen sb (AgMap.mk 1 m.entries) ∧
      (0 < p.journalBlocks → Device.Holds d' (m.sb.journalStart * p.bs) p.bs zeros) ∧
      Copies d' sb (AgMap.mk 1 m.entries) ((agLen - 1) * p.bs)) Fails d := by
  have offset : sb.agmapOffset = m.sb.agmapOffset := by rw [counted]
  have length : sb.agmapLength = AGMAP_BYTES := by rw [counted, capacity]
  obtain ⟨low, start, copies, last, whole⟩ := head.regions fresh large small
  have block : SB_SIZE ≤ p.bs := Nat.le_trans (by decide) large
  rw [finish]
  dsimp only
  rw [wp_bind, wp_ofResult]
  split
  · rename_i bytes stored
    have room := Gofs.toBytes_room stored
    rw [wp_bind, pwrite, wp_modify, wp_bind, pwrite, wp_modify, wp_bind]
    have behind : ∀ i ∈ List.range' (m.sb.journalStart % 2 ^ 32) p.journalBlocks,
        m.sb.journalStart * p.bs ≤ 0 + i * p.bs := by
      intro i member
      rw [Nat.zero_add]
      apply Nat.mul_le_mul_right
      rw [start] at member
      exact (List.mem_range'_1.mp member).1
    set d' := (d.pwrite m.sb.agmapOffset AGMAP_BYTES bytes).pwrite (m.sb.agmapOffset + AGMAP_BYTES)
      AGMAP_BYTES bytes with written
    have first : Device.Holds d' m.sb.agmapOffset AGMAP_BYTES bytes :=
      (Device.holds_pwrite d _ _ bytes).pwrite (.inl (Nat.le_refl _)) bytes
    have second : Device.Holds d' (m.sb.agmapOffset + AGMAP_BYTES) AGMAP_BYTES bytes :=
        Device.holds_pwrite _ _ _ bytes
    have copied : wp (zeroBlocks 0 p.bs (List.range' (m.sb.journalStart % 2 ^ 32) p.journalBlocks))
        (fun _ t => Device.Holds t m.sb.agmapOffset AGMAP_BYTES bytes ∧
          Device.Holds t (m.sb.agmapOffset + AGMAP_BYTES) AGMAP_BYTES bytes)
          (fun _ _ => True ∧ True) d' :=
      wp_and (holds_zeroBlocks first fun i member =>
          .inl (Nat.le_trans (by omega) (behind i member)))
        (holds_zeroBlocks second fun i member => .inl (Nat.le_trans copies (behind i member)))
    have zeroed := wp_and (zeroBlocks_wp 0 p.bs
      (List.range' (m.sb.journalStart % 2 ^ 32) p.journalBlocks) d') (wp_forall (fun some_blocks =>
        zeroBlocks_first p.bs (m.sb.journalStart % 2 ^ 32) some_blocks d') fun _ _ => trivial)
    apply wp_mono (wp_and copied zeroed)
    · rintro _ d₁ ⟨⟨copy0, copy1⟩, grows, empty⟩
      rw [wp_bind, pwrite, wp_modify, wp_bind]
      apply wp_mono (subtract_wp _ _ _)
      · rintro len0 d₂ ⟨rfl, -, rfl⟩
        rw [wp_bind, pwrite, wp_modify, wp_bind, wp_modify, wp_pure, lengths, List.headD_cons]
        rw [← counted]
        have primary : Device.Holds ((d₁.pwrite 0 SB_SIZE sb.toBytes).pwrite ((agLen - 1) * p.bs)
            SB_SIZE
            sb.toBytes).sync 0 SB_SIZE sb.toBytes :=
          ((Device.holds_pwrite d₁ 0 SB_SIZE _).pwrite (.inl (by omega)) _).sync
        have kept : ∀ off, SB_SIZE ≤ off → off + AGMAP_BYTES ≤ (agLen - 1) * p.bs →
            Device.Holds d₁ off AGMAP_BYTES bytes →
            Device.Holds ((d₁.pwrite 0 SB_SIZE sb.toBytes).pwrite ((agLen - 1) * p.bs) SB_SIZE
              sb.toBytes).sync off AGMAP_BYTES bytes := fun off above below held =>
          ((held.pwrite (.inr (by omega)) _).pwrite (.inl below) _).sync
        have map0 := kept m.sb.agmapOffset (Nat.le_trans block low) (by omega) copy0
        have map1 := kept (m.sb.agmapOffset + AGMAP_BYTES) (by omega) (by omega) copy1
        refine ⟨room, ?_, ?_, fun some_blocks => ?_,
            ⟨⟨bytes, ?_, ?_, ?_⟩, primary, (Device.holds_pwrite _ _ _ _).sync⟩⟩
        · have copied := Nat.le_trans (Device.pwrite_grows d m.sb.agmapOffset AGMAP_BYTES bytes)
            (Device.pwrite_grows _ (m.sb.agmapOffset + AGMAP_BYTES) AGMAP_BYTES bytes)
          have named := Nat.le_trans (Device.pwrite_grows d₁ 0 SB_SIZE sb.toBytes)
            (Device.pwrite_grows _ ((agLen - 1) * p.bs) SB_SIZE sb.toBytes)
          exact Nat.le_trans copied (Nat.le_trans grows named)
        · refine Gofs.stored_of_holds (fits room) (mapFits room) ?_ ?_ (length.symm ▸ stored)
              primary.reopen ?_ ?_
          · exact length.symm ▸ (by decide)
          · exact length.symm ▸ (by decide)
          · rw [length, offset]
            exact map0.reopen
          · rw [length, offset]
            exact map1.reopen
        · have blank := empty some_blocks
          rw [start] at blank
          exact ((blank.pwrite (.inr (by omega)) _).pwrite (.inl last) _).sync
        · rw [length]
          exact stored
        · rw [length, offset]
          exact map0
        · rw [length, offset]
          exact map1
      · exact fun _ _ _ => trivial
    · exact fun _ _ _ => trivial
  · trivial

omit [Crc32c] in
theorem divCeil_le (a b : Nat) : divCeil a b ≤ a + b := by
  rw [divCeil]
  have quotient := Nat.div_le_self (a + b - 1) b
  omega

omit [Crc32c] in
theorem journalBlocks_lt (p : MkfsPlan) (block : p.bs < 2 ^ 32)
    (journal : ∀ j, p.opts.journal = some j → j < 2 ^ 63) : p.journalBlocks < 2 ^ 64 := by
  rw [MkfsPlan.journalBlocks]
  have size : (p.opts.journal.getD (min (128 <<< 20) (max (p.size / 16) (4 <<< 20)))) < 2 ^ 63 := by
    rcases asked : p.opts.journal with _ | j
    · rw [Option.getD_none]
      exact Nat.lt_of_le_of_lt (Nat.min_le_left _ _) (by decide)
    · exact journal j asked
  have ceil := divCeil_le (p.opts.journal.getD (min (128 <<< 20) (max (p.size / 16) (4 <<< 20))))
      p.bs
  omega

omit [Crc32c] in
theorem lengths_cons (p : MkfsPlan) (blocks : 0 < p.totalBlocks) :
    ∃ len rest, p.lengths = len :: rest := by
  obtain ⟨k, total⟩ := Nat.exists_eq_succ_of_ne_zero (Nat.pos_iff_ne_zero.mp blocks)
  rw [MkfsPlan.lengths, total, agLengths, if_neg (Nat.succ_ne_zero k)]
  dsimp only
  split
  · exact ⟨_, _, rfl⟩
  · exact ⟨_, _, rfl⟩

/-- The state of the loop when it ends. -/
structure Looped (p : MkfsPlan) (agLen : Nat) (rest : List Nat) (m : MkfsState) (next : Nat) :
    Prop where
  lengths : p.lengths = agLen :: rest
  head : Head p agLen { sb := p.proto } m next
  entries : m.entries = laidOut p.bs 0 0 p.lengths
  sums : Sums { sb := p.proto } m p.lengths.sum

omit [Crc32c] in
theorem diskName_fits (p : MkfsPlan) (label : ∀ u ∈ p.opts.label, u < 2 ^ 16) :
    p.diskName.length = 16 ∧ ∀ u ∈ p.diskName, u < 2 ^ 16 := by
  refine ⟨by rw [MkfsPlan.diskName, List.length_map, List.length_range], fun u member => ?_⟩
  obtain ⟨i, -, rfl⟩ := List.mem_map.mp member
  rw [List.getD_eq_getElem?_getD]
  rcases found : (p.opts.label.take 16)[i]? with _ | u
  · exact Nat.two_pow_pos 16
  · exact label u (List.mem_of_mem_take (List.mem_of_getElem? found))

omit [Crc32c] in
theorem Looped.inside {p : MkfsPlan} {agLen : Nat} {rest : List Nat} {m : MkfsState} {next : Nat}
    (h : Looped p agLen rest m next) : agLen < 2 ^ 32 ∧ agLen * p.bs ≤ p.size ∧
      p.lengths.sum * p.bs ≤ p.size ∧ p.lengths.sum ≤ p.size := by
  have total : p.lengths.sum ≤ p.size / p.bs := agLengths_sum _ _ _
  have first : agLen ∈ p.lengths := by
    rw [h.lengths]
    exact List.mem_cons_self
  have whole : p.lengths.sum * p.bs ≤ p.size :=
    Nat.le_trans (Nat.mul_le_mul_right _ total) (Nat.div_mul_le_self _ _)
  have member : agLen ≤ p.lengths.sum := by
    rw [h.lengths, List.sum_cons]
    exact Nat.le_add_right _ _
  exact ⟨mem_agLengths first, Nat.le_trans (Nat.mul_le_mul_right _ member) whole, whole,
    Nat.le_trans total (Nat.div_le_self _ _)⟩

omit [Crc32c] in
theorem kernelLen_lt (p : MkfsPlan) (kernel : ∀ k, p.opts.kernel = some k → k.1 < 2 ^ 63) :
    p.kernelLen < 2 ^ 63 := by
  rw [MkfsPlan.kernelLen]
  rcases asked : p.opts.kernel with _ | k
  · exact Nat.two_pow_pos 63
  · exact kernel k asked

omit [Crc32c] in
theorem Looped.fits {p : MkfsPlan} {agLen : Nat} {rest : List Nat} {m : MkfsState} {next : Nat}
    (h : Looped p agLen rest m next) {sb : Superblock} (counted : sb = { m.sb with
      rootIno := m.rootIno
      freeBlocks := m.totalFree
      rsvdBlocks := m.totalRsvd
      fullBlocks := m.totalFull }) (power : Superblock.isPowerOfTwo p.opts.blocksize = true)
    (large : 2048 ≤ p.opts.blocksize) {d : Device} (typed : p.opts.Typed d p.uuid)
    (size : p.size < 2 ^ 63) (room : m.entries.length * 8 ≤ AGMAP_BYTES) : sb.Fits := by
  obtain ⟨small, first, -, total⟩ := h.inside
  have later : next * p.bs ≤ agLen * p.bs := Nat.mul_le_mul_right _ (by
    have := h.head.room
    omega)
  have slots : agLen * p.slots ≤ agLen * p.bs := Nat.mul_le_mul_left _ (Nat.div_le_self _ _)
  have count : p.lengths.length < 2 ^ 32 := by
    rw [h.entries, laidOut_length, AGMAP_BYTES] at room
    omega
  have behind := h.head.journal
  have fitting := h.head.room
  have offset := h.head.agmap
  have kernel := h.head.kernel
  have image := kernelLen_lt p typed.kernel
  have journal := journalBlocks_lt p typed.blocksize typed.journal
  have ino := h.head.ino
  have free : m.totalFree ≤ 0 + p.lengths.sum := h.sums.free
  have rsvd : m.totalRsvd ≤ 0 + p.lengths.sum := h.sums.rsvd
  have full : m.totalFull ≤ 0 + p.lengths.sum := h.sums.full
  rw [h.head.rest] at counted
  subst counted
  refine ⟨Nat.two_pow_pos 64, Nat.two_pow_pos 64, Nat.two_pow_pos 64, ⟨power, ?_⟩, typed.inodesize,
    typed.uuid, diskName_fits p typed.label, ?_, count, ?_, (by decide : AGMAP_BYTES < 2 ^ 64), ?_,
    journal, ?_, ?_, ?_, ?_, ?_, (by decide : 1 < 2 ^ 64), (by decide : 1 < 2 ^ 64),
    Nat.two_pow_pos 64⟩
  · exact Nat.le_trans (by decide) large
  · show m.rootIno < _
    omega
  · show m.sb.agmapOffset < _
    rw [offset]
    show 0 + _ < _
    omega
  · show m.sb.journalStart < _
    omega
  · show m.sb.kernelOffset < _
    omega
  · show m.sb.kernelEnd < _
    omega
  · show m.totalFree < _
    omega
  · show m.totalRsvd < _
    omega
  · show m.totalFull < _
    omega

/-- What the first open reads, and what it promises. -/
structure Image (d : Device) (sb : Superblock) (map : AgMap) : Prop where
  stored : Gofs.Stored d.reopen sb map
  fits : sb.Fits
  laid : map.Laid sb.blocksize d.fileLen
  room : map.entries.length * 8 ≤ sb.agmapLength
  small : sb.agmapLength < 2 ^ 32
  rooted : map.Rooted sb
  count : map.entries.length = sb.nextAg
  gen : sb.gen = 1
  start : sb.journalHead = 0
  empty : 0 < sb.journalLength → Device.Holds d (sb.journalStart * sb.blocksize) sb.blocksize zeros

omit [Crc32c] in
theorem Looped.mapFits {p : MkfsPlan} {agLen : Nat} {rest : List Nat} {m : MkfsState} {next : Nat}
    (h : Looped p agLen rest m next) (size : p.size < 2 ^ 63)
    (room : m.entries.length * 8 ≤ AGMAP_BYTES) : (AgMap.mk 1 m.entries).Fits := by
  obtain ⟨-, -, inside, -⟩ := h.inside
  refine ⟨(by decide : 1 < 2 ^ 64), ?_, fun e member => ?_⟩
  · rw [AGMAP_BYTES] at room
    show m.entries.length < _
    omega
  · have listed : e ∈ laidOut p.bs 0 0 p.lengths := h.entries ▸ member
    obtain ⟨i, len, start, rfl, among, -, -, high⟩ := mem_laidOut listed
    have short := mem_agLengths among
    refine ⟨?_, short, (by decide : 1 < 2 ^ 16), fun s hs => ?_⟩
    · show (AGF_PRESENT ||| if i = 0 then AGF_IMMOVABLE else 0) < _
      split <;> decide
    · cases List.mem_singleton.mp hs
      refine ⟨Nat.two_pow_pos 32, short, ?_⟩
      show start < _
      omega

/-- The size that mkfs takes for the device. -/
def deviceSize (opts : MkfsOpts) (d : Device) : Nat := opts.size.getD d.fileLen

omit [Crc32c] in
theorem openDevice_wp {opts : MkfsOpts} {uuid : Nat} {d : Device} (typed : opts.Typed d uuid) :
    wp (openDevice opts) (fun _ d' => d'.size = d'.fileLen ∧ d'.fileLen < 2 ^ 63 ∧
      d'.size / opts.blocksize = deviceSize opts d / opts.blocksize) Fails d := by
  rw [openDevice, wp_modify, deviceSize]
  split
  · rename_i s asked
    have bound := typed.size s asked
    have blocks := (Nat.div_eq_sub_mod_div (m := s) (n := opts.blocksize)).symm
    rw [asked, Option.getD_some]
    dsimp only
    split
    · exact ⟨rfl, Nat.lt_of_le_of_lt (Nat.sub_le _ _) bound, blocks⟩
    · rename_i same
      have length : d.fileLen = s - s % opts.blocksize := not_not.mp same
      refine ⟨rfl, typed.file, ?_⟩
      show d.fileLen / _ = _
      rw [length]
      exact blocks
  · rename_i none
    rw [none]
    exact ⟨rfl, typed.file, rfl⟩

/-- The loop and what follows it. -/
theorem contents_wp (p : MkfsPlan) (power : Superblock.isPowerOfTwo p.opts.blocksize = true)
    (large : 2048 ≤ p.opts.blocksize) {d₀ d : Device} (typed : p.opts.Typed d₀ p.uuid)
    (blocks : 0 < p.totalBlocks) (inside : p.size ≤ d.fileLen) (size : p.size < 2 ^ 63) :
    wp (agLoop p p.lengths 0 { sb := p.proto } >>= finish p) (fun _ d' => ∃ sb map, Image d' sb map)
      Fails d := by
  obtain ⟨len, rest, lengths⟩ := lengths_cons p blocks
  have some_bytes : 0 < p.bs := Nat.lt_of_lt_of_le (by decide) large
  rw [wp_bind, lengths]
  apply wp_mono (agLoop_zero_wp p some_bytes { sb := p.proto } ⟨rfl, rfl⟩ d)
  · rintro m d₁ ⟨grows, ⟨next, head⟩, entries, sums⟩
    rw [← lengths] at entries sums
    have looped : Looped p len rest m next := ⟨lengths, head, entries, sums⟩
    have capacity : m.sb.agmapLength = AGMAP_BYTES := by rw [head.rest]; rfl
    have blocksize : m.sb.blocksize = p.bs := by rw [head.rest]; rfl
    apply wp_mono (finish_wp p lengths head rfl capacity large looped.inside.1 rfl
      (looped.fits rfl power large typed size) (looped.mapFits size) d₁)
    · rintro _ d₂ ⟨room, grows', stored, empty, -⟩
      obtain ⟨low, -, copies, last, -⟩ := head.regions rfl large looped.inside.1
      refine ⟨_, _, stored, looped.fits rfl power large typed size room, ?_, ?_, ?_,
          ⟨?_, ?_, ?_, ?_⟩, ?_, ?_, ?_,
        ?_⟩
      · show (AgMap.mk 1 m.entries).Laid m.sb.blocksize d₂.fileLen
        rw [blocksize, looped.entries]
        have whole : p.lengths.sum * p.bs ≤ d₂.fileLen := Nat.le_trans looped.inside.2.2.1
          (Nat.le_trans inside (Nat.le_trans grows grows'))
        exact laidOut_laid (fun len member => mem_agLengths member) whole
      · rw [← capacity] at room
        exact room
      · show m.sb.agmapLength < _
        rw [capacity]
        decide
      · refine ⟨len, laidOut p.bs 1 (0 + len * p.bs) rest, ?_, ?_⟩
        · show m.entries = _
          rw [looped.entries, lengths]
          rfl
        · show m.sb.journalStart * m.sb.blocksize + m.sb.blocksize ≤ (len - 1) * m.sb.blocksize
          rw [blocksize]
          exact last
      · show SB_SIZE ≤ m.sb.blocksize
        rw [blocksize]
        exact Nat.le_trans (by decide) large
      · show m.sb.blocksize ≤ m.sb.agmapOffset
        rw [blocksize]
        exact low
      · show m.sb.agmapOffset + m.sb.agmapLength + m.sb.agmapLength ≤ m.sb.journalStart *
            m.sb.blocksize
        rw [blocksize, capacity]
        exact copies
      · show m.entries.length = m.sb.nextAg
        rw [looped.entries, laidOut_length, head.rest]
        rfl
      · show m.sb.gen = 1
        rw [head.rest]
        rfl
      · show m.sb.journalHead = 0
        rw [head.rest]
        rfl
      · show 0 < m.sb.journalLength → Device.Holds d₂ (m.sb.journalStart * m.sb.blocksize)
            m.sb.blocksize zeros
        rw [blocksize]
        intro some_blocks
        apply empty
        rw [head.rest] at some_blocks
        exact some_blocks
    · exact fun _ _ _ => trivial
  · exact fun _ _ _ => trivial

omit [Crc32c] in
theorem totalBlocks_pos (p : MkfsPlan) {size : Nat} (cut : p.size = size - size % p.bs)
    (some_bytes : 0 < p.size) : 0 < p.totalBlocks := by
  have multiple : p.bs ∣ p.size := by
    rw [cut]
    exact Nat.dvd_sub_mod size
  exact Nat.div_pos (Nat.le_of_dvd some_bytes multiple) (Nat.pos_of_dvd_of_pos multiple some_bytes)

/-- The plan of a mkfs that gets to its loop. -/
structure Accepted (opts : MkfsOpts) (uuid : Nat) (d : Device) (p : MkfsPlan) : Prop where
  asked : p.opts = opts
  named : p.uuid = uuid
  power : Superblock.isPowerOfTwo p.opts.blocksize = true
  large : 2048 ≤ p.opts.blocksize
  inodesize : p.opts.inodesize ≤ p.opts.blocksize
  least : 128 ≤ p.opts.inodesize
  fan : p.slots ≤ ALLOC_FANOUT
  some_block : 0 < p.totalBlocks
  blocks : p.totalBlocks = deviceSize opts d / opts.blocksize
  size : p.size < 2 ^ 63

theorem mkfs_plan {opts : MkfsOpts} {uuid : Nat} {now : Ts} {d d' : Device} {summary : MkfsSummary}
    (typed : opts.Typed d uuid) (run : mkfs opts uuid now d = (.ok summary, d')) :
    ∃ p e, Accepted opts uuid d p ∧ p.size ≤ e.fileLen ∧
      (agLoop p p.lengths 0 { sb := p.proto } >>= finish p) e = (.ok summary, d') := by
  refine wp_ok (Q := fun s t => ∃ p e, Accepted opts uuid d p ∧ p.size ≤ e.fileLen ∧
    (agLoop p p.lengths 0 { sb := p.proto } >>= finish p) e = (.ok s, t)) (E := Fails) ?_ run
  rw [mkfs, wp_ite]
  split
  · trivial
  · rename_i blocksize
    rw [wp_ite]
    split
    · trivial
    · rename_i inodesize
      rw [wp_ite]
      split
      · trivial
      · rename_i fan
        rw [wp_bind]
        refine wp_mono (openDevice_wp typed) ?_ fun _ _ _ => trivial
        rintro _ d₁ ⟨whole, size, blocks⟩
        rw [wp_bind, wp_get]
        dsimp only
        rw [wp_ite]
        split
        · trivial
        · rename_i enough
          have power : Superblock.isPowerOfTwo opts.blocksize = true ∧ 2048 ≤ opts.blocksize := by
            simpa using blocksize
          have fits : 128 ≤ opts.inodesize ∧ opts.inodesize ≤ opts.blocksize := by
            simp at inodesize
            exact ⟨inodesize.1.2, inodesize.2⟩
          have image : 0 < d₁.size - d₁.size % opts.blocksize := Nat.lt_of_lt_of_le (by decide)
            (Nat.le_of_not_lt enough)
          apply wp_of_run
          intro s t loop
          refine ⟨⟨opts, uuid, now, d₁.size - d₁.size % opts.blocksize⟩, d₁,
              ⟨rfl, rfl, power.1, power.2, fits.2, fits.1,
            Nat.le_of_not_lt fan, totalBlocks_pos _ rfl image, ?_, ?_⟩, ?_, loop⟩
          · exact Nat.div_eq_sub_mod_div.symm.trans blocks
          · show d₁.size - d₁.size % opts.blocksize < _
            omega
          · rw [← whole]
            exact Nat.sub_le _ _

theorem mkfs_wp {opts : MkfsOpts} {uuid : Nat} {now : Ts} {d : Device} {Q : Device → Prop}
    (typed : opts.Typed d uuid) (contents : ∀ p : MkfsPlan, p.opts = opts → p.uuid = uuid →
    ∀ e : Device,
      Superblock.isPowerOfTwo p.opts.blocksize = true → 2048 ≤ p.opts.blocksize →
      0 < p.totalBlocks →
      p.size ≤ e.fileLen → p.size < 2 ^ 63 →
        wp (agLoop p p.lengths 0 { sb := p.proto } >>= finish p) (fun _ d' => Q d') Fails e) :
    wp (mkfs opts uuid now) (fun _ d' => Q d') Fails d := by
  refine wp_of_run (Q := fun _ d' => Q d') ?_
  intro s t run
  obtain ⟨p, e, plan, inside, loop⟩ := mkfs_plan typed run
  exact wp_ok (contents p plan.asked plan.named e plan.power plan.large plan.some_block inside
      plan.size) loop

theorem mkfs_image {opts : MkfsOpts} {uuid : Nat} {now : Ts} {d d' : Device} {summary : MkfsSummary}
    (typed : opts.Typed d uuid) (run : mkfs opts uuid now d = (.ok summary, d')) :
    ∃ sb map, Image d' sb map := by
  refine wp_ok (mkfs_wp (Q := fun d' => ∃ sb map, Image d' sb map) typed ?_) run
  rintro p rfl rfl e power large blocks inside size
  exact contents_wp p power large typed blocks inside size

end Mkfs

theorem Mkfs.Image.mapped [Crc32c] {d : Device} {sb : Superblock} {map : AgMap}
    (image : Mkfs.Image d sb map) {g : Gofs} (opened : Gofs.openRw d.reopen = .ok g) :
    g.Mapped := by
  obtain ⟨sb', fromBackup, map', found, loaded, steady⟩ := Gofs.openRw_steady opened
  rw [image.stored.found] at found
  cases found
  rw [image.stored.map] at loaded
  cases loaded
  exact steady.mapped ⟨image.laid, image.room, image.small⟩

theorem Mkfs.Image.opens [Crc32c] {d : Device} {sb : Superblock} {map : AgMap}
    (image : Mkfs.Image d sb map) : ∃ g, Gofs.openRw d.reopen = .ok g := by
  have idle : Gofs.Idle { dev := d.reopen, sb, map } :=
    ⟨image.start, fun some_blocks => (image.empty some_blocks).reopen⟩
  refine Gofs.openRw_idle image.stored image.rooted image.laid idle ?_
  rw [image.gen]
  decide

/-- From mkfs through any successful resizes the AG map stays valid, and address translation is
total on the PRESENT AGs and injective. -/
theorem agmap_invariant [Crc32c] {opts : MkfsOpts} {uuid : Nat} {now : Ts} {d d' : Device}
    {summary : MkfsSummary} {g₀ g : Gofs} (typed : opts.Typed d uuid)
    (made : Mkfs.mkfs opts uuid now d = (.ok summary, d')) (opened : Gofs.openRw d'.reopen = .ok g₀)
    (run : Relation.ReflTransGen Resized g₀ g) :
    g.map.Valid g.sb.blocksize g.dev.size ∧
      (∀ ag l, g.map.Has ag l → ∃ off, g.map.resolve (blkAddr ag l) g.sb.blocksize = some off ∧
        off % g.sb.blocksize = 0 ∧ off + g.sb.blocksize ≤ g.dev.size) ∧
      (∀ a b offA offB, g.map.resolve a g.sb.blocksize = some offA →
        g.map.resolve b g.sb.blocksize = some offB → a ≠ b →
          offA + g.sb.blocksize ≤ offB ∨ offB + g.sb.blocksize ≤ offA) := by
  obtain ⟨sb, map, image⟩ := Mkfs.mkfs_image typed made
  have mapped := mapped_of_resized (image.mapped opened) run
  refine ⟨mapped.laid.valid, fun ag l has => mapped.laid.resolve_total has, ?_⟩
  intro a b offA offB foundA foundB different
  exact mapped.laid.resolve_apart foundA foundB different

/-- 8 MiB in blocks of 8 KiB, with a journal of 8 blocks. -/
def smallOpts : MkfsOpts :=
  { size := some (8 <<< 20), blocksize := 8192, inodesize := 512, journal := some 65536 }

def emptyFile : Device := { bytes := zeros, fileLen := 0, size := 0 }

theorem smallOpts_typed : smallOpts.Typed emptyFile 0 := by
  refine ⟨by decide, by decide, fun s h => ?_, fun j h => ?_, fun u h => ?_,
      fun k h => ?_, by decide, by decide⟩
  · cases h
    decide
  · cases h
    decide
  · cases h
  · cases h

theorem small_made : ∃ summary d', @Mkfs.mkfs castagnoli smallOpts 0 ⟨0, 0⟩
    emptyFile = (.ok summary, d') := by
  have done : (match (@Mkfs.mkfs castagnoli smallOpts 0 ⟨0, 0⟩ emptyFile).1 with
      | .ok _ => true
      | .error _ => false) = true := by decide +kernel
  rcases run : @Mkfs.mkfs castagnoli smallOpts 0 ⟨0, 0⟩ emptyFile with ⟨e | summary, d'⟩
  · rw [run] at done
    cases done
  · exact ⟨summary, d', rfl⟩

theorem Gofs.shrink_whole [Crc32c] {g : Gofs} (mapped : g.Mapped) :
    Gofs.shrink g.dev.size g = (.ok (), { g with dev := g.dev.setLen g.dev.size }) := by
  have none : Gofs.firstBeyond g.map g.sb.blocksize g.dev.size = none := by
    apply List.find?_eq_none.mpr
    rintro ⟨e, i⟩ member beyond
    obtain ⟨present, past⟩ := Bool.and_eq_true_iff.mp beyond
    obtain ⟨s, hs, far⟩ := List.any_eq_true.mp past
    have entry := List.mem_of_getElem? (List.mem_zipIdx_iff_getElem?.mp member)
    have inside := mapped.laid.valid.inside e entry present s hs
    have beyond := of_decide_eq_true far
    omega
  have loop : Gofs.shrinkLoop g.dev.size (g.map.entries.length + 1) g = (.ok (), g) := by
    simp only [Gofs.shrinkLoop, bind_run, get_run, none, pure_run]
  simp only [Gofs.shrink, bind_run, get_run, loop, Gofs.setLen, modify_run]

end FiveFs
