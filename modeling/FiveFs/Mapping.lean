import FiveFs.Resize
import Mathlib.Logic.Relation

/-! The AG map under resizing: segments stay aligned, inside the device and disjoint, and the
address translation stays total and injective. -/

namespace FiveFs

open Buffer Prog

/-- What the AG map promises about a device of `size` bytes. -/
structure AgMap.Valid (m : AgMap) (bs size : Nat) : Prop where
  aligned : ∀ e ∈ m.entries, e.present → ∀ s ∈ e.segs, s.devOffset % bs = 0
  inside : ∀ e ∈ m.entries, e.present → ∀ s ∈ e.segs, s.devEnd bs ≤ size
  disjoint : m.segs.Pairwise fun s t => s.devEnd bs ≤ t.devOffset ∨ t.devEnd bs ≤ s.devOffset
  covers : ∀ e ∈ m.entries, e.present →
    ∀ l, l < e.length ↔ ∃ s ∈ e.segs, s.agBlock ≤ l ∧ l < s.agBlock + s.blocks
  retired : ∀ e ∈ m.entries, e.flags &&& AGF_RETIRED ≠ 0 → e.segs = []

/-- A PRESENT AG is one region of the device, and any other entry is RETIRED and has none. -/
def AgEntry.Placed (bs size : Nat) (e : AgEntry) : Prop :=
  (e.flags = AGF_PRESENT ∨ e.flags = AGF_PRESENT ||| AGF_IMMOVABLE) ∧ e.length < 2 ^ 32 ∧
      (∃ off, e.segs = [⟨0, e.length, off⟩] ∧ off % bs = 0 ∧ off + e.length * bs ≤ size) ∨
    e.flags = AGF_RETIRED ∧ e.segs = []

/-- What lies in AG 0 before its last block: the superblock, the AG map copies and the first journal
block. -/
structure AgMap.Rooted (m : AgMap) (sb : Superblock) : Prop where
  first : ∃ len rest, m.entries = ⟨AGF_PRESENT ||| AGF_IMMOVABLE, len, [⟨0, len, 0⟩]⟩ :: rest ∧
    sb.journalStart * sb.blocksize + sb.blocksize ≤ (len - 1) * sb.blocksize
  block : SB_SIZE ≤ sb.blocksize
  primary : sb.blocksize ≤ sb.agmapOffset
  copies : sb.agmapOffset + sb.agmapLength + sb.agmapLength ≤ sb.journalStart * sb.blocksize

/-- No byte of the device belongs to both. -/
def AgEntry.Apart (bs : Nat) (e e' : AgEntry) : Prop :=
  ∀ s ∈ e.segs, ∀ t ∈ e'.segs, s.devEnd bs ≤ t.devOffset ∨ t.devEnd bs ≤ s.devOffset

/-- The invariant of the map over resizes. -/
structure AgMap.Laid (m : AgMap) (bs size : Nat) : Prop where
  placed : ∀ e ∈ m.entries, e.Placed bs size
  apart : m.entries.Pairwise (AgEntry.Apart bs)

namespace AgEntry

variable {bs size : Nat} {e e' : AgEntry}

theorem Apart.symm (h : e.Apart bs e') : e'.Apart bs e := fun s hs t ht => (h t ht s hs).symm

theorem Placed.of_present (h : e.Placed bs size) (present : e.present) :
    e.length < 2 ^ 32 ∧
      ∃ off, e.segs = [⟨0, e.length, off⟩] ∧ off % bs = 0 ∧ off + e.length * bs ≤ size := by
  rcases h with ⟨_, small, region⟩ | ⟨retired, _⟩
  · exact ⟨small, region⟩
  · rw [AgEntry.present, retired] at present
    cases present

theorem Placed.mono {size' : Nat} (h : e.Placed bs size)
    (fits : ∀ s ∈ e.segs, e.present → s.devEnd bs ≤ size') : e.Placed bs size' := by
  rcases h with ⟨flags, small, off, only, aligned, _⟩ | retired
  · have present : e.present := by
      rcases flags with flags | flags <;> rw [AgEntry.present, flags] <;> rfl
    have inside := fits ⟨0, e.length, off⟩ (only ▸ List.mem_singleton_self _) present
    exact .inl ⟨flags, small, off, only, aligned, inside⟩
  · exact .inr retired

end AgEntry

namespace AgMap

variable {m : AgMap} {bs size : Nat}

theorem Laid.valid (h : m.Laid bs size) : m.Valid bs size := by
  refine ⟨?_, ?_, ?_, ?_, ?_⟩
  · intro e member present s hs
    obtain ⟨_, off, only, aligned, _⟩ := (h.placed e member).of_present present
    rw [only] at hs
    cases List.mem_singleton.mp hs
    exact aligned
  · intro e member present s hs
    obtain ⟨_, off, only, _, inside⟩ := (h.placed e member).of_present present
    rw [only] at hs
    cases List.mem_singleton.mp hs
    exact inside
  · rw [segs, List.pairwise_flatMap]
    refine ⟨fun e member => ?_, h.apart⟩
    rcases h.placed e member with ⟨_, _, off, only, _⟩ | ⟨_, none⟩
    · rw [only]
      exact List.pairwise_singleton _ _
    · rw [none]
      exact List.Pairwise.nil
  · intro e member present l
    obtain ⟨_, off, only, _, _⟩ := (h.placed e member).of_present present
    rw [only]
    simp
  · intro e member retired
    rcases h.placed e member with ⟨flags, _⟩ | ⟨_, none⟩
    · rcases flags with flags | flags <;> rw [flags] at retired <;> exact (retired rfl).elim
    · exact none

/-- A block address of a PRESENT AG. -/
def Has (m : AgMap) (ag l : Nat) : Prop := ∃ e, m.entries[ag]? = some e ∧ e.present ∧ l < e.length

theorem Laid.resolve_entry (h : m.Laid bs size) {ag l : Nat} {e : AgEntry}
    (entry : m.entries[ag]? = some e)
    (present : e.present) (inside : l < e.length) :
    ∃ off, e.segs = [⟨0, e.length, off⟩] ∧ off % bs = 0 ∧ off + e.length * bs ≤ size ∧
      m.resolve (blkAddr ag l) bs = some (off + l * bs) := by
  obtain ⟨small, off, only, aligned, fits⟩ :=
    (h.placed e (List.mem_of_getElem? entry)).of_present present
  have split : blkSplit (blkAddr ag l) = (ag, l) := by
    rw [blkSplit, blkAddr, Nat.mul_comm, Nat.mul_add_div (by decide), Nat.mul_add_mod,
      Nat.div_eq_of_lt (by omega), Nat.mod_eq_of_lt (by omega), Nat.add_zero]
  have flag : ¬ (e.flags &&& AGF_PRESENT = 0 ∨ l ≥ e.length) := by
    rintro (zero | past)
    · rw [AgEntry.present, zero] at present
      cases present
    · omega
  refine ⟨off, only, aligned, fits, ?_⟩
  rw [resolve, split]
  simp [entry, flag, only, inside]

theorem Laid.resolve_total (h : m.Laid bs size) {ag l : Nat} (has : m.Has ag l) :
    ∃ off, m.resolve (blkAddr ag l) bs = some off ∧ off % bs = 0 ∧ off + bs ≤ size := by
  obtain ⟨e, entry, present, inside⟩ := has
  obtain ⟨off, _, aligned, fits, found⟩ := h.resolve_entry entry present inside
  refine ⟨_, found, ?_, ?_⟩
  · rw [Nat.add_mul_mod_self_right]
    exact aligned
  · have rows : (l + 1) * bs ≤ e.length * bs := Nat.mul_le_mul_right bs inside
    rw [Nat.succ_mul] at rows
    omega

theorem has_of_resolve {addr off : Nat} (found : m.resolve addr bs = some off) :
    m.Has (addr / 2 ^ 32) (addr % 2 ^ 32) := by
  rw [resolve, blkSplit] at found
  dsimp only at found
  split at found
  · cases found
  · rename_i e entry
    split at found
    · cases found
    · rename_i valid
      refine ⟨e, entry, ?_, by omega⟩
      rw [AgEntry.present]
      simpa using fun zero => valid (.inl zero)

theorem Laid.resolve_apart (h : m.Laid bs size) {addr addr' off off' : Nat}
    (found : m.resolve addr bs = some off) (found' : m.resolve addr' bs = some off')
    (other : addr ≠ addr') : off + bs ≤ off' ∨ off' + bs ≤ off := by
  obtain ⟨e, entry, present, inside⟩ := has_of_resolve found
  obtain ⟨e', entry', present', inside'⟩ := has_of_resolve found'
  have whole : ∀ a, blkAddr (a / 2 ^ 32) (a % 2 ^ 32) = a := fun a => Nat.div_add_mod' a (2 ^ 32)
  obtain ⟨base, only, _, _, place⟩ := h.resolve_entry entry present inside
  obtain ⟨base', only', _, _, place'⟩ := h.resolve_entry entry' present' inside'
  rw [whole, found] at place
  rw [whole, found'] at place'
  cases place
  cases place'
  have row : ∀ {l n}, l < n → l * bs + bs ≤ n * bs := by
    intro l n lt
    rw [← Nat.succ_mul]
    exact Nat.mul_le_mul_right bs lt
  by_cases same : addr / 2 ^ 32 = addr' / 2 ^ 32
  · rw [same, entry'] at entry
    cases entry
    rw [only] at only'
    injection only' with seg
    injection seg with _ _ equal
    subst equal
    have local_ne : addr % 2 ^ 32 ≠ addr' % 2 ^ 32 := by
      intro equal
      apply other
      rw [← whole addr, ← whole addr', same, equal]
    rcases Nat.lt_or_gt_of_ne local_ne with less | more
    · have step := row less
      omega
    · have step := row more
      omega
  · have regions : e.Apart bs e' := by
      have pairs := List.pairwise_iff_getElem.mp h.apart
      obtain ⟨lt, here⟩ := List.getElem?_eq_some_iff.mp entry
      obtain ⟨lt', here'⟩ := List.getElem?_eq_some_iff.mp entry'
      rcases Nat.lt_or_gt_of_ne same with less | more
      · exact here ▸ here' ▸ pairs _ _ lt lt' less
      · exact (here ▸ here' ▸ pairs _ _ lt' lt more : AgEntry.Apart bs e' e).symm
    have apart := regions _ (only ▸ List.mem_singleton_self _) _ (only' ▸ List.mem_singleton_self _)
    simp only [AgSegment.devEnd] at apart
    have last := row inside
    have last' := row inside'
    omega

theorem Laid.append (h : m.Laid bs size) {e : AgEntry} (placed : e.Placed bs size)
    (apart : ∀ e' ∈ m.entries, e'.Apart bs e) (gen : Nat) :
    (AgMap.mk gen (m.entries ++ [e])).Laid bs size := by
  refine ⟨?_, List.pairwise_append.mpr ⟨h.apart, List.pairwise_singleton _ _, ?_⟩⟩
  · intro e' member
    rcases List.mem_append.mp member with old | new
    · exact h.placed e' old
    · cases List.mem_singleton.mp new
      exact placed
  · intro e' old e'' new
    cases List.mem_singleton.mp new
    exact apart e' old

theorem apart_set (pairs : m.entries.Pairwise (AgEntry.Apart bs)) {ag : Nat} {e : AgEntry}
    (apart : ∀ i e', m.entries[i]? = some e' → i ≠ ag → e'.Apart bs e) :
    (m.entries.set ag e).Pairwise (AgEntry.Apart bs) := by
  have pairs := List.pairwise_iff_getElem.mp pairs
  apply List.pairwise_iff_getElem.mpr
  intro i j hi hj less
  rw [List.length_set] at hi hj
  rw [List.getElem_set, List.getElem_set]
  by_cases here : ag = i
  · rw [if_pos here, if_neg (by omega)]
    exact (apart j _ (List.getElem?_eq_getElem hj) (by omega)).symm
  · rw [if_neg here]
    by_cases there : ag = j
    · rw [if_pos there]
      exact apart i _ (List.getElem?_eq_getElem hi) (by omega)
    · rw [if_neg there]
      exact pairs i j hi hj less

theorem Laid.set (h : m.Laid bs size) {ag : Nat} {e : AgEntry} (placed : e.Placed bs size)
    (apart : ∀ i e', m.entries[i]? = some e' → i ≠ ag → e'.Apart bs e) (gen : Nat) :
    (AgMap.mk gen (m.entries.set ag e)).Laid bs size := by
  refine ⟨?_, ?_⟩
  · intro e' member
    rcases List.mem_or_eq_of_mem_set member with old | rfl
    · exact h.placed e' old
    · exact placed
  · exact apart_set h.apart apart

theorem Laid.resize (h : m.Laid bs size) {size' : Nat}
    (fits : ∀ e ∈ m.entries, e.present → ∀ s ∈ e.segs, s.devEnd bs ≤ size') : m.Laid bs size' :=
  ⟨fun e member => (h.placed e member).mono fun s hs present => fits e member present s hs, h.apart⟩

theorem apart_of_overlaps {off len skip : Nat} (clear : m.overlapsExcluding bs off len skip = false)
    {i : Nat} {e : AgEntry} (entry : m.entries[i]? = some e) (other : i ≠ skip) :
    ∀ s ∈ e.segs, s.devEnd bs ≤ off ∨ off + len ≤ s.devOffset := by
  intro s hs
  by_contra meets
  apply Bool.eq_false_iff.mp clear
  have member : (e, i) ∈ m.entries.zipIdx := List.mem_zipIdx_iff_getElem?.mpr entry
  refine List.any_eq_true.mpr ⟨(e, i), member, ?_⟩
  have hits : AgEntry.hits e bs off len = true := by
    refine List.any_eq_true.mpr ⟨s, hs, ?_⟩
    simp only [Bool.and_eq_true, decide_eq_true_eq]
    omega
  simp [other, hits]

theorem pairLe_trans (a b c : Nat × Nat) (h : pairLe a b = true) (h' : pairLe b c = true) :
    pairLe a c = true := by
  simp only [pairLe, Bool.or_eq_true, Bool.and_eq_true, decide_eq_true_eq, beq_iff_eq] at *
  omega

theorem pairLe_total (a b : Nat × Nat) : (pairLe a b || pairLe b a) = true := by
  simp only [pairLe, Bool.or_eq_true, Bool.and_eq_true, decide_eq_true_eq, beq_iff_eq]
  omega

theorem gapFrom_clear {bytes limit x : Nat} {regions : List (Nat × Nat)} {cursor : Nat}
    (sorted : regions.Pairwise fun a b => pairLe a b = true)
    (found : gapFrom bytes limit regions cursor = some x) :
    cursor ≤ x ∧ ∀ r ∈ regions, r.2 ≤ x ∨ x + bytes ≤ r.1 := by
  induction regions generalizing cursor with
  | nil =>
      rw [gapFrom] at found
      split at found
      · cases found
        exact ⟨Nat.le_refl _, fun r member => absurd member List.not_mem_nil⟩
      · cases found
  | cons r rest ih =>
      obtain ⟨first, later⟩ := List.pairwise_cons.mp sorted
      rw [gapFrom] at found
      split at found
      · rename_i gap
        cases found
        refine ⟨Nat.le_refl _, fun q member => .inr ?_⟩
        rcases List.mem_cons.mp member with rfl | behind
        · omega
        · have order := first q behind
          simp only [pairLe, Bool.or_eq_true, Bool.and_eq_true, decide_eq_true_eq,
              beq_iff_eq] at order
          omega
      · obtain ⟨low, clear⟩ := ih later found
        refine ⟨Nat.le_trans (Nat.le_max_left _ _) low, fun q member => ?_⟩
        rcases List.mem_cons.mp member with rfl | behind
        · exact .inl (Nat.le_trans (Nat.le_max_right _ _) low)
        · exact clear q behind

theorem findGap_clear {bytes limit x : Nat} (found : m.findGap bs bytes limit = some x) :
    ∀ s ∈ m.segs, s.devEnd bs ≤ x ∨ x + bytes ≤ s.devOffset := by
  intro s hs
  have sorted := List.pairwise_mergeSort pairLe_trans pairLe_total
      (m.segs.map fun s => (s.devOffset, s.devEnd bs))
  apply (gapFrom_clear sorted found).2 (s.devOffset, s.devEnd bs)
  exact List.mem_mergeSort.mpr (List.mem_map.mpr ⟨s, hs, rfl⟩)

theorem le_foldl_max (l : List Nat) (a : Nat) : a ≤ l.foldl max a := by
  induction l generalizing a with
  | nil => exact Nat.le_refl a
  | cons x rest ih => exact Nat.le_trans (Nat.le_max_left a x) (ih _)

theorem le_mappedEnd {s : AgSegment} (hs : s ∈ m.segs) : s.devEnd bs ≤ m.mappedEnd bs := by
  have among : s.devEnd bs ∈ m.segs.map fun s => s.devEnd bs := List.mem_map.mpr ⟨s, hs, rfl⟩
  have bound : ∀ (l : List Nat) (a x : Nat), x ∈ l → x ≤ l.foldl max a := by
    intro l
    induction l with
    | nil => exact fun a x member => absurd member List.not_mem_nil
    | cons y rest ih =>
        intro a x member
        rcases List.mem_cons.mp member with rfl | later
        · exact Nat.le_trans (Nat.le_max_right a x) (le_foldl_max rest _)
        · exact ih _ x later
  exact bound _ 0 _ among

end AgMap

/-- Only contents, counters, the journal and generations differ. -/
structure Gofs.Steady (g g' : Gofs) : Prop where
  entries : g'.map.entries = g.map.entries
  size : g'.dev.size = g.dev.size
  blocksize : g'.sb.blocksize = g.sb.blocksize
  agmapLength : g'.sb.agmapLength = g.sb.agmapLength
  inodesize : g'.sb.inodesize = g.sb.inodesize

/-- The invariant of the volume over resizes. -/
structure Gofs.Mapped (g : Gofs) : Prop where
  laid : g.map.Laid g.sb.blocksize g.dev.size
  room : g.map.entries.length * 8 ≤ g.sb.agmapLength
  small : g.sb.agmapLength < 2 ^ 32

namespace Gofs

variable [Crc32c] {g g' : Gofs}

/-- Any failure. -/
abbrev Fails (_ : Err) (_ : Gofs) : Prop := True

omit [Crc32c] in
theorem Steady.refl (g : Gofs) : g.Steady g := ⟨rfl, rfl, rfl, rfl, rfl⟩

omit [Crc32c] in
theorem Steady.trans {g₁ g₂ g₃ : Gofs} (h : g₁.Steady g₂) (h' : g₂.Steady g₃) : g₁.Steady g₃ :=
  ⟨h'.entries.trans h.entries, h'.size.trans h.size, h'.blocksize.trans h.blocksize,
    h'.agmapLength.trans h.agmapLength, h'.inodesize.trans h.inodesize⟩

omit [Crc32c] in
theorem Steady.mapped (h : g.Steady g') (mapped : g.Mapped) : g'.Mapped := by
  refine ⟨⟨?_, ?_⟩, ?_, ?_⟩
  · rw [h.entries, h.blocksize, h.size]
    exact mapped.laid.placed
  · rw [h.entries, h.blocksize]
    exact mapped.laid.apart
  · rw [h.entries, h.agmapLength]
    exact mapped.room
  · rw [h.agmapLength]
    exact mapped.small

omit [Crc32c] in
theorem putEntries_room {capacity off off' : Nat} {entries : List AgEntry} {b b' : Bytes}
    (run : AgMap.putEntries capacity b off entries = .ok (b', off')) :
    entries.length * 8 ≤ capacity - off := by
  induction entries generalizing b off with
  | nil => simp
  | cons e rest ih =>
      rw [AgMap.putEntries] at run
      split at run
      · cases run
      · have later := ih run
        rw [List.length_cons]
        omega

theorem toBytes_room {m : AgMap} {capacity : Nat} {b : Bytes} (run : m.toBytes capacity = .ok b) :
    m.entries.length * 8 ≤ capacity := by
  rcases placed : AgMap.putEntries capacity (putU32 (putU64 (putU32 zeros 0 AGMAP_MAGIC) 8 m.gen) 16
    m.entries.length) AGMAP_HDR m.entries with e | ⟨b₁, off⟩
  · simp only [AgMap.toBytes, placed] at run
    cases run
  · exact Nat.le_trans (putEntries_room placed) (Nat.sub_le _ _)

omit [Crc32c] in
theorem increase_wp (width a b : Nat) (g : Gofs) :
    wp (increase width a b) (fun r g' => g' = g ∧ a + b < 2 ^ width ∧ r = a + b) Fails g := by
  rw [increase, wp_ite]
  split
  · rename_i small
    exact ⟨rfl, small, rfl⟩
  · trivial

theorem writeAgmap_wp (g : Gofs) : wp writeAgmap (fun _ g' => g.Steady g' ∧
    g.map.entries.length * 8 ≤ g.sb.agmapLength) Fails g := by
  rw [writeAgmap, wp_bind, wp_get, wp_bind]
  apply wp_mono (increase_wp _ _ _ g)
  · rintro gen _ ⟨rfl, -, -⟩
    rw [wp_bind, wp_modify, wp_bind, wp_get, wp_bind, wp_ofResult]
    split
    · rename_i bytes stored
      have room := toBytes_room stored
      exact ⟨⟨rfl, rfl, rfl, rfl, rfl⟩, room⟩
    · trivial
  · exact fun _ _ _ => trivial

theorem writeSuperblock_wp (g : Gofs) : wp writeSuperblock (fun _ g' => g.Steady g') Fails g := by
  simp only [writeSuperblock, wp_bind, wp_get, wp_ite, wp_panicWith, wp_modify, pwrite]
  split
  · trivial
  · split
    · exact ⟨rfl, rfl, rfl, rfl, rfl⟩
    · exact ⟨rfl, rfl, rfl, rfl, rfl⟩

omit [Crc32c] in
theorem pread_wp (off n : Nat) (g : Gofs) : wp (pread off n) (fun _ g' => g' = g) Fails g := by
  unfold wp
  split
  · rename_i run
    rw [pread] at run
    exact (Prod.mk.inj run).2.symm
  · trivial

omit [Crc32c] in
theorem readBlock_wp (blk : Nat) (g : Gofs) : wp (readBlock blk) (fun _ g' => g' = g) Fails g := by
  rw [readBlock, wp_bind, wp_get, wp_bind, resolve, wp_bind, wp_get]
  split
  · exact pread_wp _ _ g
  · trivial

theorem readAgHeader_wp (ag : Nat) (g : Gofs) :
    wp (readAgHeader ag) (fun _ g' => g' = g) Fails g := by
  rw [readAgHeader, wp_bind]
  apply wp_mono (readBlock_wp _ g)
  · rintro buf g' rfl
    split
    · rfl
    · trivial
  · exact fun _ _ _ => trivial

omit [Crc32c] in
theorem subtract_wp (a b : Nat) (g : Gofs) :
    wp (subtract a b) (fun r g' => g' = g ∧ b ≤ a ∧ r = a - b) Fails g := by
  rw [subtract, wp_ite]
  split
  · rename_i small
    exact ⟨rfl, small, rfl⟩
  · trivial

omit [Crc32c] in
theorem copyLoop_wp (src dst total chunk : Nat) (fuel done : Nat) (g : Gofs) :
    wp (copyLoop src dst total chunk fuel done) (fun _ g' => g.Steady g') Fails g := by
  induction fuel generalizing done g with
  | zero => exact .refl g
  | succ fuel ih =>
      rw [copyLoop, wp_ite]
      split
      · dsimp only
        rw [wp_bind]
        apply wp_mono (pread_wp _ _ g)
        · rintro buf g' rfl
          rw [wp_bind, pwrite, wp_modify]
          apply wp_mono (ih _ _)
          · exact fun _ g'' steady =>
              ⟨steady.entries, steady.size, steady.blocksize, steady.agmapLength, steady.inodesize⟩
          · exact fun _ _ _ => trivial
        · exact fun _ _ _ => trivial
      · exact .refl g

omit [Crc32c] in
theorem copySegs_wp (dest bs : Nat) (segs : List AgSegment) (g : Gofs) :
    wp (copySegs dest bs segs) (fun _ g' => g.Steady g') Fails g := by
  induction segs generalizing g with
  | nil => exact .refl g
  | cons s rest ih =>
      rw [copySegs, wp_bind]
      apply wp_mono (copyLoop_wp _ _ _ _ _ _ g)
      · intro _ g' steady
        apply wp_mono (ih g')
        · exact fun _ g'' steady' => steady.trans steady'
        · exact fun _ _ _ => trivial
      · exact fun _ _ _ => trivial

theorem persistMap_steady (g : Gofs) : wp persistMap (fun _ g' => g.Steady g' ∧
    g.map.entries.length * 8 ≤ g.sb.agmapLength) Fails g := by
  rw [persistMap, wp_bind]
  apply wp_mono (writeAgmap_wp g)
  · rintro _ g₁ ⟨steady, room⟩
    rw [wp_bind]
    apply wp_mono (writeSuperblock_wp g₁)
    · intro _ g₂ steady'
      rw [sync, wp_modify]
      have synced : g₂.Steady { g₂ with dev := g₂.dev.sync } := ⟨rfl, rfl, rfl, rfl, rfl⟩
      exact ⟨(steady.trans steady').trans synced, room⟩
    · exact fun _ _ _ => trivial
  · exact fun _ _ _ => trivial

theorem persistMap_wp (laid : g.map.Laid g.sb.blocksize g.dev.size)
    (small : g.sb.agmapLength < 2 ^ 32) :
    wp persistMap (fun _ g' => g'.Mapped ∧ g.Steady g') Fails g := by
  apply wp_mono (persistMap_steady g)
  · rintro _ g' ⟨steady, room⟩
    exact ⟨steady.mapped ⟨laid, room, small⟩, steady⟩
  · exact fun _ _ _ => trivial

omit [Crc32c] in
theorem unskipped (mapped : g.Mapped) {i : Nat} {e : AgEntry} (entry : g.map.entries[i]? = some e) :
    i ≠ 2 ^ 32 - 1 := by
  have bound := (List.getElem?_eq_some_iff.mp entry).1
  have room := mapped.room
  have small := mapped.small
  omega

omit [Crc32c] in
theorem newLength_le (bytes bs : Nat) : bytes / bs % 2 ^ 32 * bs ≤ bytes :=
  Nat.le_trans (Nat.mul_le_mul_right _ (Nat.mod_le _ _)) (Nat.div_mul_le_self _ _)

omit [Crc32c] in
theorem newEntry_placed {devOffset bytes bs size : Nat} (aligned : devOffset % bs = 0)
    (inside : devOffset + bytes ≤ size) : (AgEntry.mk AGF_PRESENT (bytes / bs % 2 ^ 32)
      [⟨0, bytes / bs % 2 ^ 32, devOffset⟩]).Placed bs size :=
  .inl ⟨.inl rfl, Nat.mod_lt _ (by decide), devOffset, rfl, aligned,
    Nat.le_trans (Nat.add_le_add_left (newLength_le bytes bs) _) inside⟩

omit [Crc32c] in
theorem newEntry_apart (mapped : g.Mapped) {devOffset bytes : Nat}
    (clear : ¬ g.map.overlaps g.sb.blocksize devOffset bytes = true) : ∀ e' ∈ g.map.entries,
      e'.Apart g.sb.blocksize (AgEntry.mk AGF_PRESENT (bytes / g.sb.blocksize % 2 ^ 32)
        [⟨0, bytes / g.sb.blocksize % 2 ^ 32, devOffset⟩]) := by
  intro e' member s hs t ht
  cases List.mem_singleton.mp ht
  obtain ⟨i, lt, here⟩ := List.getElem_of_mem member
  have entry : g.map.entries[i]? = some e' := List.getElem?_eq_some_iff.mpr ⟨lt, here⟩
  have region := AgMap.apart_of_overlaps (Bool.eq_false_iff.mpr clear) entry
      (unskipped mapped entry) s hs
  have length := newLength_le bytes g.sb.blocksize
  simp only [AgSegment.devEnd] at region ⊢
  omega

theorem addAg_wp (mapped : g.Mapped) {devOffset bytes : Nat}
    (inside : devOffset + bytes ≤ g.dev.size) :
    wp (addAg devOffset bytes) (fun _ g' => g'.Mapped) Fails g := by
  rw [addAg, wp_bind, wp_get]
  dsimp only
  rw [wp_ite]
  split
  · trivial
  · rename_i aligned
    rw [wp_ite]
    split
    · trivial
    · rw [wp_ite]
      split
      · trivial
      · rename_i clear
        rw [wp_bind]
        apply wp_mono (subtract_wp _ _ g)
        · rintro cells _ ⟨rfl, -, -⟩
          rw [wp_bind]
          apply wp_mono (subtract_wp _ _ _)
          · rintro rsvd g' ⟨rfl, -, -⟩
            rw [wp_bind, pwrite, wp_modify, wp_bind, pwrite, wp_modify, wp_bind, sync, wp_modify,
                wp_bind]
            apply wp_mono (subtract_wp _ _ _)
            · rintro more g₁ ⟨rfl, -, -⟩
              rw [wp_bind]
              refine wp_mono (increase_wp _ _ _ _) ?_ fun _ _ _ => trivial
              rintro nextAg _ ⟨rfl, -, -⟩
              rw [wp_bind]
              refine wp_mono (increase_wp _ _ _ _) ?_ fun _ _ _ => trivial
              rintro free _ ⟨rfl, -, -⟩
              rw [wp_bind]
              refine wp_mono (increase_wp _ _ _ _) ?_ fun _ _ _ => trivial
              rintro reserved _ ⟨rfl, -, -⟩
              have laid := mapped.laid.append (newEntry_placed (by simpa using aligned) inside)
                (newEntry_apart mapped clear) g'.map.gen
              rw [wp_bind, wp_modify, wp_bind]
              refine wp_mono (persistMap_wp ?_ ?_) (fun _ _ stored => stored.1) fun _ _ _ => trivial
              · exact laid
              · exact mapped.small
            · exact fun _ _ _ => trivial
          · exact fun _ _ _ => trivial
        · exact fun _ _ _ => trivial

theorem grow_wp (mapped : g.Mapped) (newSize : Nat) :
    wp (grow newSize) (fun _ g' => g'.Mapped) Fails g := by
  rw [grow, wp_bind, wp_get]
  dsimp only
  rw [wp_ite]
  split
  · trivial
  · rename_i past
    rw [wp_ite]
    split
    · rename_i larger
      rw [wp_bind, setLen, wp_modify]
      have wider : ({ g with dev := g.dev.setLen newSize } : Gofs).Mapped := by
        refine ⟨mapped.laid.resize fun e member present s hs => ?_, mapped.room, mapped.small⟩
        have inside := mapped.laid.valid.inside e member present s hs
        exact Nat.le_trans inside (Nat.le_of_lt larger)
      refine addAg_wp wider ?_
      show _ ≤ newSize
      omega
    · apply addAg_wp mapped
      omega

theorem relocate_wp (mapped : g.Mapped) (ag dest : Nat) :
    wp (relocate ag dest) (fun _ g' => g'.Mapped ∧ g'.dev.size = g.dev.size) Fails g := by
  rw [relocate, wp_bind, wp_get]
  dsimp only
  rw [wp_ite]
  split
  · trivial
  · rename_i aligned
    split
    · trivial
    · rename_i e entry
      rw [wp_ite]
      split
      · trivial
      · rename_i present
        rw [wp_ite]
        split
        · trivial
        · rw [wp_ite]
          split
          · trivial
          · rename_i inside
            rw [wp_ite]
            split
            · trivial
            · rename_i clear
              rw [wp_bind]
              apply wp_mono (copySegs_wp dest g.sb.blocksize e.segs g)
              · intro _ g₁ steady
                have mapped₁ := steady.mapped mapped
                have placed : (AgEntry.mk e.flags e.length [⟨0, e.length, dest⟩]).Placed
                    g₁.sb.blocksize
                    g₁.dev.size := by
                  rw [steady.blocksize, steady.size]
                  rcases mapped.laid.placed e (List.mem_of_getElem? entry) with ⟨flags, small,
                      _⟩ | retired
                  · exact .inl ⟨flags, small, dest, rfl, by simpa using aligned,
                        Nat.le_of_not_lt inside⟩
                  · rw [AgEntry.present, retired.1] at present
                    exact absurd (Decidable.not_not.mp present) (by decide)
                have apart : ∀ i e', g₁.map.entries[i]? = some e' → i ≠ ag →
                    e'.Apart g₁.sb.blocksize (AgEntry.mk e.flags e.length
                    [⟨0, e.length, dest⟩]) := by
                  intro i e' entry' other s hs t ht
                  cases List.mem_singleton.mp ht
                  rw [steady.entries] at entry'
                  rw [steady.blocksize]
                  exact AgMap.apart_of_overlaps (Bool.eq_false_iff.mpr clear) entry' other s hs
                have laid := mapped₁.laid.set placed apart g₁.map.gen
                rw [wp_bind, sync, wp_modify, wp_bind, setEntry, wp_modify]
                refine wp_mono (persistMap_wp ?_ ?_) (fun _ _ stored => ⟨stored.1, ?_⟩) fun _ _ _ =>
                    trivial
                · exact laid
                · exact mapped₁.small
                · exact stored.2.size.trans steady.size
              · exact fun _ _ _ => trivial

theorem retire_wp (mapped : g.Mapped) (ag : Nat) :
    wp (retire ag) (fun _ g' => g'.Mapped ∧ g'.dev.size = g.dev.size) Fails g := by
  rw [retire, wp_ite]
  split
  · trivial
  · rw [wp_bind]
    apply wp_mono (readAgHeader_wp ag g)
    · rintro hdr g' rfl
      rw [wp_ite]
      split
      · trivial
      · rw [wp_bind, wp_get]
        split
        · trivial
        · rename_i e entry
          rw [wp_ite]
          split
          · trivial
          · have placed : (AgEntry.mk AGF_RETIRED e.length []).Placed g'.sb.blocksize g'.dev.size :=
              .inr ⟨rfl, rfl⟩
            have apart : ∀ i e', g'.map.entries[i]? = some e' → i ≠ ag →
                e'.Apart g'.sb.blocksize (AgEntry.mk AGF_RETIRED e.length []) :=
              fun i e' _ _ s _ t ht => absurd ht List.not_mem_nil
            have laid := mapped.laid.set placed apart g'.map.gen
            rw [wp_bind, setEntry, wp_modify, wp_bind, wp_get, wp_bind]
            apply wp_mono (subtract_wp _ _ _)
            · rintro free g₁ ⟨rfl, -, -⟩
              rw [wp_bind, wp_modify, wp_bind, wp_get, wp_bind]
              apply wp_mono (subtract_wp _ _ _)
              · rintro rsvd g₂ ⟨rfl, -, -⟩
                rw [wp_bind, wp_modify]
                refine wp_mono (persistMap_wp ?_ ?_) (fun _ _ stored => ⟨stored.1, stored.2.size⟩)
                  fun _ _ _ => trivial
                · exact laid
                · exact mapped.small
              · exact fun _ _ _ => trivial
            · exact fun _ _ _ => trivial
    · exact fun _ _ _ => trivial

theorem evict_wp (mapped : g.Mapped) (ag : Nat) (e : AgEntry) (newSize : Nat) :
    wp (evict ag e newSize) (fun _ g' => g'.Mapped ∧ g'.dev.size = g.dev.size) Fails g := by
  rw [evict, wp_ite]
  split
  · trivial
  · rw [wp_bind]
    apply wp_mono (readAgHeader_wp ag g)
    · rintro hdr g' rfl
      rw [wp_ite]
      split
      · exact retire_wp mapped ag
      · rw [wp_bind, wp_get]
        split
        · trivial
        · exact relocate_wp mapped ag _
    · exact fun _ _ _ => trivial

theorem shrinkLoop_wp (mapped : g.Mapped) (newSize fuel : Nat) :
    wp (shrinkLoop newSize fuel) (fun _ g' => g'.Mapped ∧
    firstBeyond g'.map g'.sb.blocksize newSize = none)
      Fails g := by
  induction fuel generalizing g with
  | zero => trivial
  | succ fuel ih =>
      rw [shrinkLoop, wp_bind, wp_get]
      split
      · rename_i none
        exact ⟨mapped, none⟩
      · rw [wp_bind]
        apply wp_mono (evict_wp mapped _ _ newSize)
        · exact fun _ g' post => ih post.1
        · exact fun _ _ _ => trivial

theorem shrink_wp (mapped : g.Mapped) (newSize : Nat) :
    wp (shrink newSize) (fun _ g' => g'.Mapped) Fails g := by
  rw [shrink, wp_bind, wp_get, wp_bind]
  apply wp_mono (shrinkLoop_wp mapped newSize _)
  · rintro _ g' ⟨mapped', none⟩
    rw [setLen, wp_modify]
    refine ⟨mapped'.laid.resize fun e member present s hs => ?_, mapped'.room, mapped'.small⟩
    obtain ⟨i, lt, here⟩ := List.getElem_of_mem member
    have indexed : (e, i) ∈ g'.map.entries.zipIdx :=
      List.mem_zipIdx_iff_getElem?.mpr (List.getElem?_eq_some_iff.mpr ⟨lt, here⟩)
    have within := List.find?_eq_none.mp none (e, i) indexed
    by_contra beyond
    apply within
    rw [Bool.and_eq_true]
    have past : s.devEnd g'.sb.blocksize > newSize := Nat.lt_of_not_le beyond
    exact ⟨present, List.any_eq_true.mpr ⟨s, hs, decide_eq_true past⟩⟩
  · exact fun _ _ _ => trivial

end Gofs

/-- A successful resize call. -/
inductive Resized [Crc32c] (g g' : Gofs) : Prop
  | grow {newSize ag : Nat} : Gofs.grow newSize g = (.ok ag, g') → Resized g g'
  | addAg {devOffset bytes ag : Nat} : devOffset + bytes ≤ g.dev.size →
      Gofs.addAg devOffset bytes g = (.ok ag, g') → Resized g g'
  | relocate {ag dest : Nat} : Gofs.relocate ag dest g = (.ok (), g') → Resized g g'
  | retire {ag : Nat} : Gofs.retire ag g = (.ok (), g') → Resized g g'
  | shrink {newSize : Nat} : Gofs.shrink newSize g = (.ok (), g') → Resized g g'

theorem Resized.mapped [Crc32c] {g g' : Gofs} (h : Resized g g') (mapped : g.Mapped) :
    g'.Mapped := by
  cases h with
  | grow run => exact wp_ok (Gofs.grow_wp mapped _) run
  | addAg inside run => exact wp_ok (Gofs.addAg_wp mapped inside) run
  | relocate run => exact (wp_ok (Gofs.relocate_wp mapped _ _) run).1
  | retire run => exact (wp_ok (Gofs.retire_wp mapped _) run).1
  | shrink run => exact wp_ok (Gofs.shrink_wp mapped _) run

theorem mapped_of_resized [Crc32c] {g g' : Gofs} (mapped : g.Mapped)
    (run : Relation.ReflTransGen Resized g g') : g'.Mapped := by
  induction run with
  | refl => exact mapped
  | tail _ step ih => exact step.mapped ih

end FiveFs
