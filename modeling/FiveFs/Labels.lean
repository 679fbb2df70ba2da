import FiveFs.Fresh

/-! The AG headers that mkfs writes, one for each AG, and that nothing it writes later covers. -/

namespace FiveFs.Mkfs

open Buffer Prog

/-- The header of AG `ag` of `len` blocks at `off`. -/
def Headed [Crc32c] (bs : Nat) (d : Device) (ag off len : Nat) : Prop :=
  ∃ hdr : AgHeader, hdr.agNum = ag ∧ hdr.length = len ∧
    Device.Holds d (off + hdrBlock ag * bs) bs (clip AGHDR_SIZE hdr.toBytes)

/-- The headers of AGs laid out one after the other. -/
def AllHeaded [Crc32c] (bs : Nat) (d : Device) : Nat → Nat → List Nat → Prop
  | _, _, [] => True
  | ag, off, len :: rest => Headed bs d ag off len ∧ AllHeaded bs d (ag + 1) (off + len * bs) rest

/-- What is true of the volume beyond its image. -/
structure Labels [Crc32c] (d : Device) (sb : Superblock) (map : AgMap) (top : Nat) : Prop where
  fits : map.Fits
  gen : map.gen = 1
  first : ∃ rest, map.entries = ⟨AGF_PRESENT ||| AGF_IMMOVABLE, top, [⟨0, top, 0⟩]⟩ :: rest
  positive : ∀ e ∈ map.entries, 0 < e.length
  header : 2 * sb.blocksize ≤ sb.agmapOffset
  capacity : AGMAP_HDR ≤ sb.agmapLength
  copies : Copies d sb map ((top - 1) * sb.blocksize)
  headed : sb.journalLength < 2 ^ 32 → ∀ k e off, map.entries[k]? = some e →
      e.segs = [⟨0, e.length, off⟩] →
    Headed sb.blocksize d k off e.length
  behind : ∀ k e off, map.entries[k]? = some e → e.segs = [⟨0, e.length, off⟩] → k ≠ 0 →
      top * sb.blocksize ≤ off
  free : sb.freeBlocks < 2 ^ 63
  rsvd : sb.rsvdBlocks < 2 ^ 63

variable {bs : Nat}

section

theorem agLengths_pos {maxAg : Nat} (some_block : 0 < maxAg) (small : maxAg + 1024 < 2 ^ 32)
    {fuel remaining len : Nat}
    (member : len ∈ agLengths maxAg fuel remaining) : 0 < len := by
  induction fuel generalizing remaining with
  | zero => cases member
  | succ fuel ih =>
      rw [agLengths] at member
      split at member
      · cases member
      · rename_i more
        dsimp only at member
        split at member
        · rename_i runt
          rw [List.mem_singleton.mp member, Nat.mod_eq_of_lt (by omega)]
          omega
        · rcases List.mem_cons.mp member with rfl | later
          · rw [Nat.mod_eq_of_lt (by omega)]
            omega
          · exact ih later

theorem lengths_pos (p : MkfsPlan) (large : 2048 ≤ p.bs) {first : Nat} {rest : List Nat}
    (lengths : p.lengths = first :: rest) (some_block : 0 < first) : ∀ len ∈ rest, 0 < len := by
  intro len member
  by_cases none : p.maxAgBlocks = 0
  · rw [MkfsPlan.lengths, none] at lengths
    rcases total : p.totalBlocks with _ | k
    · rw [total] at lengths
      cases lengths
    · rw [total, agLengths, if_neg (Nat.succ_ne_zero k)] at lengths
      dsimp only at lengths
      split at lengths
      · injection lengths with _ tail
        rw [← tail] at member
        cases member
      · injection lengths with head _
        rw [Nat.min_zero, Nat.zero_mod] at head
        omega
  · have small : p.maxAgBlocks ≤ MAX_AG_BYTES / 2048 := Nat.div_le_div_left large (by decide)
    have among : len ∈ p.lengths := by
      rw [lengths]
      exact List.mem_cons_of_mem _ member
    have bound : MAX_AG_BYTES / 2048 = 33554432 := by decide
    exact agLengths_pos (Nat.pos_of_ne_zero none) (by omega) among

end

variable [Crc32c]

omit [Crc32c] in
theorem holds_tableBlocks {off n : Nat} {b : Bytes} {devOff root : Nat} (table : Bytes)
    {is : List Nat} {d : Device}
    (h : Device.Holds d off n b) (behind : off + n ≤ devOff + root * bs) :
    wp (tableBlocks devOff bs root table is) (fun _ d' => Device.Holds d' off n b) Fails d := by
  induction is generalizing d with
  | nil => exact h
  | cons i rest ih =>
      rw [tableBlocks, wp_bind, pwrite, wp_modify]
      have row : root * bs ≤ (root + i) * bs := Nat.mul_le_mul_right _ (Nat.le_add_right _ _)
      exact ih (h.pwrite (.inl (by omega)) _)

theorem metadata_frame (p : MkfsPlan) (ag next devOff rtBlocks : Nat) (hdr : AgHeader)
    (table : Bytes) {off n : Nat}
    {b : Bytes} {d : Device} (h : Device.Holds d off n b) (behind : off + n ≤ devOff) :
    wp (metadata p ag next devOff rtBlocks hdr table) (fun _ d' => Device.Holds d' off n b) Fails
    d := by
  rw [metadata, wp_bind]
  refine wp_mono (holds_zeroBlocks h fun i _ => .inl (Nat.le_trans behind (Nat.le_add_right _ _)))
      ?_ fun _ _ _ => trivial
  intro _ d₁ h₁
  rw [wp_bind, pwrite, wp_modify]
  exact holds_tableBlocks table (h₁.pwrite (.inl (Nat.le_trans behind (Nat.le_add_right _ _))) _)
    (Nat.le_trans behind (Nat.le_add_right _ _))

theorem metadata_headed (p : MkfsPlan) (ag next devOff rtBlocks : Nat) (hdr : AgHeader)
    (table : Bytes) (d : Device) :
    wp (metadata p ag next devOff rtBlocks hdr table) (fun _ d' =>
      Device.Holds d' (devOff + hdrBlock ag * p.bs) p.bs (clip AGHDR_SIZE hdr.toBytes)) Fails
          d := by
  rw [metadata]
  rw [wp_bind]
  refine wp_mono (zeroBlocks_wp devOff p.bs (List.range next) d) ?_ fun _ _ _ => trivial
  intro _ d₁ _
  rw [wp_bind, pwrite, wp_modify]
  refine holds_tableBlocks table (Device.holds_pwrite d₁ _ _ _) ?_
  rw [allocRoot, Nat.add_mul, Nat.one_mul]
  omega

theorem nextAg_frame (p : MkfsPlan) (ag agLen : Nat) (m : MkfsState) {off n : Nat} {b : Bytes}
    {d : Device}
    (h : Device.Holds d off n b) (behind : off + n ≤ m.devOff) :
    wp (nextAg p ag agLen m) (fun _ d' => Device.Holds d' off n b) Fails d := by
  rw [nextAg]
  dsimp only
  rw [wp_bind]
  refine wp_mono (subtract_wp _ _ _) ?_ fun _ _ _ => trivial
  rintro freeCells _ ⟨rfl, -, -⟩
  rw [wp_bind]
  refine wp_mono (subtract_wp _ _ _) ?_ fun _ _ _ => trivial
  rintro rsvd _ ⟨rfl, -, -⟩
  rw [wp_bind]
  refine wp_mono (metadata_frame p _ _ _ _ _ _ h behind) ?_ fun _ _ _ => trivial
  exact fun _ d' h' => h'

theorem nextAg_headed (p : MkfsPlan) (ag agLen : Nat) (m : MkfsState) (d : Device) :
    wp (nextAg p ag agLen m) (fun _ d' => Headed p.bs d' ag m.devOff agLen) Fails d := by
  rw [nextAg]
  dsimp only
  rw [wp_bind]
  refine wp_mono (subtract_wp _ _ _) ?_ fun _ _ _ => trivial
  rintro freeCells _ ⟨rfl, -, -⟩
  rw [wp_bind]
  refine wp_mono (subtract_wp _ _ _) ?_ fun _ _ _ => trivial
  rintro rsvd _ ⟨rfl, -, -⟩
  rw [wp_bind]
  refine wp_mono (metadata_headed p _ _ _ _ _ _ _) ?_ fun _ _ _ => trivial
  exact fun _ d' h' => ⟨_, rfl, rfl, h'⟩

theorem agLoop_frame (p : MkfsPlan) (lens : List Nat) {ag : Nat} (later : ag ≠ 0) (m : MkfsState)
    {off n : Nat}
    {b : Bytes} {d : Device} (h : Device.Holds d off n b) (behind : off + n ≤ m.devOff) :
    wp (agLoop p lens ag m) (fun _ d' => Device.Holds d' off n b) Fails d := by
  induction lens generalizing ag m d with
  | nil => exact h
  | cons len rest ih =>
      rw [agLoop, wp_bind, agBody, if_neg later]
      refine wp_mono (wp_and (nextAg_wp p ag len m d) (nextAg_frame p ag len m h behind)) ?_
          fun _ _ _ => trivial
      rintro m₁ d₁ ⟨⟨-, next⟩, h₁⟩
      refine ih (Nat.succ_ne_zero ag) m₁ h₁ ?_
      rw [next.devOff]
      omega

theorem agLoop_headed (p : MkfsPlan) (lens : List Nat) (positive : ∀ len ∈ lens, 0 < len) {ag : Nat}
    (later : ag ≠ 0)
    (m : MkfsState) (d : Device) :
    wp (agLoop p lens ag m) (fun _ d' => AllHeaded p.bs d' ag m.devOff lens) Fails d := by
  induction lens generalizing ag m d with
  | nil => trivial
  | cons len rest ih =>
      rw [agLoop, wp_bind, agBody, if_neg later]
      refine wp_mono (wp_and (nextAg_wp p ag len m d) (nextAg_headed p ag len m d)) ?_ fun _ _ _ =>
          trivial
      rintro m₁ d₁ ⟨⟨-, next⟩, hdr, number, length, held⟩
      have below : m.devOff + hdrBlock ag * p.bs + p.bs ≤ m₁.devOff := by
        have row : p.bs ≤ len * p.bs := Nat.le_mul_of_pos_left _ (positive len List.mem_cons_self)
        rw [next.devOff, hdrBlock, if_neg later, Nat.zero_mul, Nat.add_zero]
        omega
      refine wp_mono (wp_and (agLoop_frame p rest (Nat.succ_ne_zero ag) m₁ held below)
        (ih (fun l member => positive l (List.mem_cons_of_mem _ member)) (Nat.succ_ne_zero ag) m₁
        d₁)) ?_
        fun _ _ _ => trivial
      rintro _ d₂ ⟨held', headed⟩
      rw [next.devOff] at headed
      exact ⟨⟨hdr, number, length, held'⟩, headed⟩

theorem kernelFile_frame (p : MkfsPlan) {kernelStart inoHint rootIno : Nat} (root : Inode)
    (kernel : Option (Nat × Bytes)) {off n : Nat} {b : Bytes} {d : Device}
    (h : Device.Holds d off n b)
    (start : p.kernelBlocks = 0 ∨ off + n ≤ kernelStart * p.bs) (ino : off + n ≤ inoHint * p.bs) :
    wp (kernelFile p kernelStart 0 inoHint rootIno root kernel)
    (fun _ d' => Device.Holds d' off n b) Fails d := by
  cases kernel with
  | none => exact h
  | some image =>
      rw [kernelFile, wp_bind, pwrite, wp_modify, wp_bind, wp_ofResult]
      have first : Device.Holds (d.pwrite (0 + kernelStart * p.bs) (p.kernelBlocks * p.bs)
          (clip image.1 image.2))
          off n b := by
        rcases start with none | behind
        · rw [none, Nat.zero_mul]
          refine ⟨Nat.le_trans h.inside (Device.pwrite_grows d _ _ _), fun i hi => ?_⟩
          rw [← h.same i hi]
          exact copyAt_of_not_mem (by omega)
        · exact h.pwrite (.inl (by omega)) _
      split
      · rw [wp_bind, pwrite, wp_modify, wp_bind, wp_ofResult]
        split
        · exact first.pwrite (.inl (by omega)) _
        · trivial
      · trivial

omit [Crc32c] in
theorem head0_kernel (p : MkfsPlan) (next devOff : Nat) (sb : Superblock) :
    p.kernelBlocks = 0 ∨ next ≤ (head0 p next devOff sb).2.1 := by
  by_cases some_kernel : p.kernelBlocks > 0
  · right
    rw [head0]
    dsimp only
    rw [if_pos some_kernel]
    show next ≤ next + 2 * p.agmapBlocks % 2 ^ 32 + p.journalBlocks % 2 ^ 32
    omega
  · left
    omega

theorem firstAg_front (p : MkfsPlan) (agLen : Nat) (m : MkfsState) (fresh : m.devOff = 0)
    {off n : Nat}
    {b : AgHeader → Bytes} (front : off + n ≤ 2 * p.bs)
    (made : ∀ next hdr table d, 0 < next → wp (metadata p 0 next 0 (rtGeometry agLen p.bs).2 hdr
    table)
      (fun _ d' => Device.Holds d' off n (b hdr)) Fails d) (d : Device) :
    wp (firstAg p agLen m) (fun _ d' => ∃ hdr : AgHeader, hdr.agNum = 0 ∧ hdr.length = agLen ∧
      Device.Holds d' off n (b hdr)) Fails d := by
  rw [firstAg]
  dsimp only
  rw [wp_ite]
  split
  · trivial
  · rw [wp_ite]
    split
    · trivial
    · rw [wp_bind, pwrite, wp_modify, wp_bind]
      refine wp_mono (subtract_wp _ _ _) ?_ fun _ _ _ => trivial
      rintro freeCells _ ⟨rfl, -, -⟩
      rw [wp_bind]
      refine wp_mono (subtract_wp _ _ _) ?_ fun _ _ _ => trivial
      rintro rsvd _ ⟨rfl, -, -⟩
      rw [wp_bind, fresh]
      have top : 0 < (head0 p (allocRoot 0 + (rtGeometry agLen p.bs).2) 0 m.sb).1 := by
        rw [head0, allocRoot]
        dsimp only
        split <;> dsimp only <;> omega
      refine wp_mono (made _ _ _ _ top) ?_ fun _ _ _ => trivial
      intro _ d₁ held
      have cell : ∀ c, 2 * p.bs ≤ (c + 1) * CELL_BLOCKS * p.bs := by
        intro c
        apply Nat.mul_le_mul_right
        rw [CELL_BLOCKS]
        omega
      rw [wp_bind, pwrite, wp_modify, wp_bind]
      refine wp_mono (kernelFile_frame p _ _ (held.pwrite (.inl ?_) _) ?_ ?_) ?_ fun _ _ _ =>
          trivial
      · rw [Nat.zero_add]
        exact Nat.le_trans front (cell _)
      · rcases head0_kernel p (allocRoot 0 + (rtGeometry agLen p.bs).2) 0 m.sb with none | start
        · exact .inl none
        · right
          refine Nat.le_trans front (Nat.mul_le_mul_right _ (Nat.le_trans ?_ start))
          rw [allocRoot, hdrBlock, if_pos rfl]
          omega
      · exact Nat.le_trans front (cell _)
      · intro root d₂ held'
        rw [wp_bind, pwrite, wp_modify, wp_pure]
        refine ⟨_, rfl, rfl, held'.pwrite (.inl ?_) _⟩
        rw [Nat.zero_add]
        exact Nat.le_trans front (cell _)

theorem firstAg_headed (p : MkfsPlan) (agLen : Nat) (m : MkfsState) (fresh : m.devOff = 0)
    (d : Device) :
    wp (firstAg p agLen m) (fun _ d' => Headed p.bs d' 0 0 agLen) Fails d := by
  have front : 0 + hdrBlock 0 * p.bs + p.bs ≤ 2 * p.bs := by
    rw [hdrBlock, if_pos rfl]
    omega
  exact firstAg_front p agLen m fresh front (fun next hdr table d _ =>
      metadata_headed p 0 next 0 _ hdr table d) d

theorem agLoop_zero_headed (p : MkfsPlan) (large : 2048 ≤ p.bs) (m : MkfsState)
    (fresh : m.devOff = 0)
    (plain : m.sb.kernelOffset = 0 ∧ m.sb.kernelEnd = 0) {len : Nat} {rest : List Nat}
    (lengths : p.lengths = len :: rest) (d : Device) :
    wp (agLoop p (len :: rest) 0 m) (fun _ d' => AllHeaded p.bs d' 0 0 (len :: rest)) Fails d := by
  rw [agLoop, wp_bind, agBody, if_pos rfl]
  refine wp_mono (wp_and (firstAg_wp p len m (Nat.lt_of_lt_of_le (by decide) large) plain d)
    (firstAg_headed p len m fresh d)) ?_ fun _ _ _ => trivial
  rintro m₁ d₁ ⟨⟨-, ⟨next, head⟩, -, devOff, -⟩, hdr, number, length, held⟩
  have room := head.room
  have root := head.root
  have below : 0 + hdrBlock 0 * p.bs + p.bs ≤ m₁.devOff := by
    have rows : 2 * p.bs ≤ len * p.bs := Nat.mul_le_mul_right _ (by omega)
    rw [devOff, fresh, hdrBlock, if_pos rfl]
    omega
  refine wp_mono (wp_and (agLoop_frame p rest Nat.one_ne_zero m₁ held below)
    (agLoop_headed p rest (lengths_pos p large lengths (by omega)) Nat.one_ne_zero m₁ d₁)) ?_
    fun _ _ _ => trivial
  rintro _ d₂ ⟨held', headed⟩
  rw [devOff, fresh] at headed
  exact ⟨⟨hdr, number, length, held'⟩, headed⟩

theorem finish_frame (p : MkfsPlan) {agLen : Nat} {rest : List Nat} {m₀ m : MkfsState} {next : Nat}
    (lengths : p.lengths = agLen :: rest) (head : Head p agLen m₀ m next) (fresh : m₀.devOff = 0)
    (large : 2048 ≤ p.bs) (small : agLen < 2 ^ 32) {off n : Nat} {b : Bytes} {d : Device}
    (held : Device.Holds d off n b)
    (outside : (SB_SIZE ≤ off ∧ off + n ≤ 2 * p.bs) ∨
    (p.journalBlocks < 2 ^ 32 ∧ agLen * p.bs ≤ off)) :
    wp (finish p m) (fun _ d' => Device.Holds d' off n b) Fails d := by
  obtain ⟨-, start, copies, last, whole⟩ := head.regions fresh large small
  have offset := head.agmap
  have room := head.room
  have behind := head.journal
  have block : SB_SIZE ≤ p.bs := Nat.le_trans (by decide) large
  have rows : 3 * p.bs ≤ next * p.bs := Nat.mul_le_mul_right _ head.root
  rw [finish]
  dsimp only
  rw [wp_bind, wp_ofResult]
  split
  · rw [wp_bind, pwrite, wp_modify, wp_bind, pwrite, wp_modify, wp_bind]
    have zeroed : ∀ i ∈ List.range' (m.sb.journalStart % 2 ^ 32) p.journalBlocks,
        off + n ≤ 0 + i * p.bs ∨ 0 + i * p.bs + p.bs ≤ off := by
      intro i member
      rw [start] at member
      obtain ⟨low, high⟩ := List.mem_range'_1.mp member
      have lower : m.sb.journalStart * p.bs ≤ i * p.bs := Nat.mul_le_mul_right _ low
      rcases outside with front | ⟨journal, tail⟩
      · omega
      · rw [Nat.mod_eq_of_lt journal] at room
        have upper : (i + 1) * p.bs ≤ agLen * p.bs := Nat.mul_le_mul_right _ (by omega)
        rw [Nat.add_mul] at upper
        omega
    refine wp_mono (holds_zeroBlocks ((held.pwrite (by omega) _).pwrite (by omega) _) zeroed) ?_
        fun _ _ _ => trivial
    intro _ d₁ kept
    rw [wp_bind, pwrite, wp_modify, wp_bind]
    refine wp_mono (subtract_wp _ _ _) ?_ fun _ _ _ => trivial
    rintro len0 d₂ ⟨rfl, -, rfl⟩
    rw [wp_bind, pwrite, wp_modify, wp_bind, wp_modify, wp_pure, lengths, List.headD_cons]
    exact ((kept.pwrite (by omega) _).pwrite (by omega) _).sync
  · trivial

theorem AllHeaded.entry {d : Device} {ag off k start : Nat} {lens : List Nat} {e : AgEntry}
    (all : AllHeaded bs d ag off lens) (entry : (laidOut bs ag off lens)[k]? = some e)
    (only : e.segs = [⟨0, e.length, start⟩]) : Headed bs d (ag + k) start e.length := by
  induction lens generalizing ag off k with
  | nil => cases entry
  | cons len rest ih =>
      cases k with
      | zero =>
          cases entry
          cases only
          exact all.1
      | succ k =>
          have later := ih all.2 entry
          rwa [Nat.add_assoc, Nat.add_comm 1] at later

omit [Crc32c] in
theorem laidOut_behind {ag off k start len : Nat} {rest : List Nat} {e : AgEntry}
    (entry : (laidOut bs ag off (len :: rest))[k]? = some e) (later : k ≠ 0)
    (only : e.segs = [⟨0, e.length, start⟩]) : off + len * bs ≤ start := by
  obtain ⟨k, rfl⟩ := Nat.exists_eq_succ_of_ne_zero later
  have member : e ∈ laidOut bs (ag + 1) (off + len * bs) rest := List.mem_of_getElem? entry
  obtain ⟨i, len', start', rfl, -, -, low, -⟩ := mem_laidOut member
  cases only
  exact low

/-- The headers and the counters of what the loop and `finish` leave. -/
theorem labels_wp (p : MkfsPlan) (power : Superblock.isPowerOfTwo p.opts.blocksize = true)
    (large : 2048 ≤ p.opts.blocksize) {d₀ d : Device} (typed : p.opts.Typed d₀ p.uuid)
    (blocks : 0 < p.totalBlocks) (size : p.size < 2 ^ 63) :
    wp (agLoop p p.lengths 0 { sb := p.proto } >>= finish p)
      (fun _ d' => ∃ sb map top, Gofs.Stored d'.reopen sb map ∧ Labels d' sb map top ∧
      sb.blocksize = p.bs ∧
        p.lengths.head? = some top) Fails d := by
  obtain ⟨len, rest, lengths⟩ := lengths_cons p blocks
  have some_bytes : 0 < p.bs := Nat.lt_of_lt_of_le (by decide) large
  rw [wp_bind, lengths]
  refine wp_mono (wp_and (agLoop_zero_wp p some_bytes { sb := p.proto } ⟨rfl, rfl⟩ d)
    (agLoop_zero_headed p large { sb := p.proto } rfl ⟨rfl, rfl⟩ lengths d)) ?_ fun _ _ _ => trivial
  rintro m d₁ ⟨⟨-, ⟨next, head⟩, entries, sums⟩, headed⟩
  rw [← lengths] at entries sums headed
  have looped : Looped p len rest m next := ⟨lengths, head, entries, sums⟩
  have capacity : m.sb.agmapLength = AGMAP_BYTES := by rw [head.rest]; rfl
  have blocksize : m.sb.blocksize = p.bs := by rw [head.rest]; rfl
  have journalLength : m.sb.journalLength = p.journalBlocks := by rw [head.rest]; rfl
  obtain ⟨small, -, inside, total⟩ := looped.inside
  have room := head.room
  have root := head.root
  have placed : ∀ k e off, m.entries[k]? = some e → e.segs = [⟨0, e.length, off⟩] →
      Headed p.bs d₁ k off e.length ∧ (k ≠ 0 → len * p.bs ≤ off) := by
    intro k e off entry only
    rw [entries, List.nil_append] at entry
    refine ⟨?_, fun later => ?_⟩
    · have found := headed.entry entry only
      rwa [Nat.zero_add] at found
    · rw [lengths] at entry
      have behind := laidOut_behind entry later only
      rwa [Nat.zero_add] at behind
  have first : m.entries = entryOf 0 len 0 :: laidOut p.bs 1 (0 + len * p.bs) rest := by
    rw [looped.entries, lengths]
    rfl
  have kept := wp_all (x := finish p m) (s := d₁) (E := Fails)
      (P := fun (i : Nat × AgEntry × Nat) _ d' =>
    m.sb.journalLength < 2 ^ 32 → m.entries[i.1]? = some i.2.1 →
        i.2.1.segs = [⟨0, i.2.1.length, i.2.2⟩] →
      Headed p.bs d' i.1 i.2.2 i.2.1.length) ?_ fun _ _ => trivial
  · refine wp_mono (wp_and (finish_wp p lengths head rfl capacity large small rfl
      (looped.fits rfl power large typed size) (looped.mapFits size) d₁) kept) ?_ fun _ _ _ =>
      trivial
    rintro _ d₂ ⟨⟨full, -, stored, -, copies⟩, found⟩
    obtain ⟨-, -, -, last, whole⟩ := head.regions rfl large small
    have offset := head.agmap
    have rows : 3 * p.bs ≤ next * p.bs := Nat.mul_le_mul_right _ root
    have free : m.totalFree ≤ 0 + p.lengths.sum := sums.free
    have rsvd : m.totalRsvd ≤ 0 + p.lengths.sum := sums.rsvd
    refine ⟨_, _, len, stored, ⟨looped.mapFits size full, rfl, ⟨_, first⟩, ?_, ?_, ?_, ?_, ?_, ?_,
        ?_, ?_⟩, blocksize,
      rfl⟩
    · intro e member
      have positive := lengths_pos p large lengths (by omega)
      rw [show (AgMap.mk 1 m.entries).entries = m.entries from rfl, looped.entries,
          lengths] at member
      obtain ⟨_, len', _, rfl, among, -, -, -⟩ := mem_laidOut member
      rcases List.mem_cons.mp among with rfl | later
      · show 0 < len'
        omega
      · exact positive len' later
    · show 2 * m.sb.blocksize ≤ m.sb.agmapOffset
      rw [blocksize, offset]
      show _ ≤ 0 + _
      omega
    · show AGMAP_HDR ≤ m.sb.agmapLength
      rw [capacity]
      decide
    · show Copies d₂ _ _ ((len - 1) * m.sb.blocksize)
      rw [blocksize]
      exact copies
    · intro journal k e off entry only
      show Headed m.sb.blocksize d₂ k off e.length
      rw [blocksize]
      exact found (k, e, off) journal entry only
    · intro k e off entry only later
      show len * m.sb.blocksize ≤ off
      rw [blocksize]
      exact (placed k e off entry only).2 later
    · show m.totalFree < _
      omega
    · show m.totalRsvd < _
      omega
  · rintro ⟨k, e, off⟩
    refine wp_forall (fun journal => wp_forall (fun entry => wp_forall (fun only => ?_) fun _ _ =>
        trivial)
      fun _ _ => trivial) fun _ _ => trivial
    obtain ⟨⟨hdr, number, length, held⟩, later⟩ := placed k e off entry only
    rw [journalLength] at journal
    refine wp_mono (finish_frame p lengths head rfl large small held ?_) ?_ fun _ _ _ => trivial
    · by_cases zero : k = 0
      · left
        subst zero
        rw [first] at entry
        cases entry
        cases only
        have block : SB_SIZE ≤ p.bs := Nat.le_trans (by decide) large
        show SB_SIZE ≤ 0 + 1 * p.bs ∧ 0 + 1 * p.bs + p.bs ≤ 2 * p.bs
        omega
      · right
        rw [hdrBlock, if_neg zero, Nat.zero_mul, Nat.add_zero]
        exact ⟨journal, later zero⟩
    · exact fun _ d' held' => ⟨hdr, number, length, held'⟩

theorem mkfs_labels {opts : MkfsOpts} {uuid : Nat} {now : Ts} {d d' : Device}
    {summary : MkfsSummary}
    (typed : opts.Typed d uuid) (run : mkfs opts uuid now d = (.ok summary, d')) :
    ∃ sb map top, Image d' sb map ∧ Labels d' sb map top := by
  obtain ⟨sb, map, image⟩ := mkfs_image typed run
  obtain ⟨sb', map', top, stored, labels⟩ : ∃ sb map top, Gofs.Stored d'.reopen sb map ∧
      Labels d' sb map top := by
    refine wp_ok (mkfs_wp (Q := fun d' => ∃ sb map top, Gofs.Stored d'.reopen sb map ∧
        Labels d' sb map top) typed
      ?_) run
    rintro p rfl rfl e power large blocks - size
    refine wp_mono (labels_wp p power large typed blocks size) ?_ fun _ _ _ => trivial
    rintro _ d' ⟨sb, map, top, stored, labels, -, -⟩
    exact ⟨sb, map, top, stored, labels⟩
  have same := image.stored.found.symm.trans stored.found
  cases same
  have same := image.stored.map.symm.trans stored.map
  cases same
  exact ⟨sb, map, top, image, labels⟩

theorem Image.behind {d : Device} {sb : Superblock} {map : AgMap} {top : Nat}
    (image : Image d sb map)
    (labels : Labels d sb map top) :
    sb.journalStart * sb.blocksize + sb.blocksize ≤ (top - 1) * sb.blocksize := by
  obtain ⟨len, rest, entries, behind⟩ := image.rooted.first
  obtain ⟨rest', entries'⟩ := labels.first
  rw [entries] at entries'
  injection entries' with first
  injection first with _ same
  rwa [same] at behind

theorem Image.opens_map {d : Device} {sb : Superblock} {map : AgMap} {top : Nat}
    (image : Image d sb map)
    (labels : Labels d sb map top) {dev : Device} {map' : AgMap} {size : Nat} {b : Bytes}
    (fits : map'.Fits)
    (first : ∃ rest, map'.entries = ⟨AGF_PRESENT ||| AGF_IMMOVABLE, top, [⟨0, top, 0⟩]⟩ :: rest)
    (laid : map'.Laid sb.blocksize size) (bytes : map'.toBytes sb.agmapLength = .ok b)
    (copy0 : dev.Holds sb.agmapOffset sb.agmapLength b)
    (copy1 : dev.Holds (sb.agmapOffset + sb.agmapLength) sb.agmapLength b)
    (primary : dev.Holds 0 SB_SIZE sb.toBytes)
    (backup : dev.Holds ((top - 1) * sb.blocksize) SB_SIZE sb.toBytes)
    (empty : 0 < sb.journalLength → dev.Holds (sb.journalStart * sb.blocksize) sb.blocksize zeros) :
    Gofs.openRw dev = .ok { dev, sb, map := map' } := by
  obtain ⟨rest, entries⟩ := first
  have stored := Gofs.stored_of_holds image.fits fits image.small labels.capacity bytes primary
      copy0 copy1
  have rooted : map'.Rooted sb :=
    ⟨⟨top, rest, entries, image.behind labels⟩, image.rooted.block, image.rooted.primary,
    image.rooted.copies⟩
  exact Gofs.openRw_healthy stored rooted laid ⟨image.start, empty⟩
      (Gofs.backup_healthy image.fits entries backup)

theorem Image.mounts {d : Device} {sb : Superblock} {map : AgMap} {top : Nat}
    (image : Image d sb map)
    (labels : Labels d sb map top) : Gofs.openRw d.reopen = .ok { dev := d.reopen, sb, map } := by
  obtain ⟨b, bytes, copy0, copy1⟩ := labels.copies.map
  exact image.opens_map labels labels.fits labels.first image.laid bytes copy0.reopen copy1.reopen
    labels.copies.primary.reopen labels.copies.backup.reopen fun some_blocks =>
    (image.empty some_blocks).reopen

end FiveFs.Mkfs
