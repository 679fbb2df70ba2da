import FiveFs.Reopen
import FiveFs.Lib.Crash

/-! The numbering of the AGs on the device: every AG map copy and every superblock copy that parses
tells the same number of AGs, and each listed AG has its own header. What a power cut leaves of it.
-/

namespace FiveFs.Numbering

open Buffer Prog

/-- AG `k` starts at byte `off`. -/
def Lists (m : AgMap) (k off : Nat) : Prop :=
  ∃ e, m.entries[k]? = some e ∧ e.present ∧ e.segs = [⟨0, e.length, off⟩]

/-- Where AG 0, of `top` blocks, keeps its records. -/
structure Grounded (s : Superblock) (top : Nat) : Prop where
  block : SB_SIZE ≤ s.blocksize
  header : 2 * s.blocksize ≤ s.agmapOffset
  room : AGMAP_HDR ≤ s.agmapLength
  small : s.agmapLength < 2 ^ 32
  copies : s.agmapOffset + s.agmapLength + s.agmapLength ≤ s.journalStart * s.blocksize
  journal : s.journalStart * s.blocksize + s.blocksize ≤ (top - 1) * s.blocksize

/-- A place of the superblock. -/
def SbPlace (s : Superblock) (top off : Nat) : Prop := off = 0 ∨ off = (top - 1) * s.blocksize

/-- A place of the AG map. -/
def MapPlace (s : Superblock) (off : Nat) : Prop :=
  off = s.agmapOffset ∨ off = s.agmapOffset + s.agmapLength

/-- A superblock of the same volume with `n` AGs and an empty journal. -/
structure Same (s : Superblock) (n : Nat) (sb : Superblock) : Prop where
  fits : sb.Fits
  nextAg : sb.nextAg = n
  blocksize : sb.blocksize = s.blocksize
  agmapOffset : sb.agmapOffset = s.agmapOffset
  agmapLength : sb.agmapLength = s.agmapLength
  journalStart : sb.journalStart = s.journalStart
  journalLength : sb.journalLength = s.journalLength
  head : sb.journalHead = 0

/-- An AG map of `n` AGs, those PRESENT among the places `H`. -/
structure Good (s : Superblock) (top : Nat) (H : Nat → Nat → Prop) (n : Nat) (m : AgMap) :
    Prop where
  fits : m.Fits
  count : m.entries.length = n
  first : ∃ rest, m.entries = ⟨AGF_PRESENT ||| AGF_IMMOVABLE, top, [⟨0, top, 0⟩]⟩ :: rest
  laid : ∃ size, m.Laid s.blocksize size
  some_block : ∀ e ∈ m.entries, e.present → 0 < e.length
  listed : ∀ k off, Lists m k off → H k off

section

variable [Crc32c]

/-- The AG map copy at `off`. -/
def mapAt (len : Nat) (d : Bytes) (off : Nat) : Except String AgMap :=
  AgMap.parse (clip len (drop off d)) len

/-- The superblock copy at `off`. -/
def sbAt (d : Bytes) (off : Nat) : Except String Superblock :=
  Superblock.parse (clip SB_SIZE (drop off d))

/-- The AG header at `off`. -/
def hdrAt (d : Bytes) (off : Nat) : Except String AgHeader :=
  AgHeader.parse (clip AGHDR_SIZE (drop off d))

/-- The headers of AG 0 and of the AGs at the places `H`, in a file of `len` bytes. -/
structure Heads (s : Superblock) (top : Nat) (H : Nat → Nat → Prop) (d : Bytes) (len : Nat) :
    Prop where
  long : top * s.blocksize ≤ len
  zero : ∃ hdr, hdrAt d s.blocksize = .ok hdr ∧ hdr.agNum = 0 ∧ hdr.length = top
  sites : ∀ k off, H k off → k ≠ 0 → top * s.blocksize ≤ off ∧ off + s.blocksize ≤ len ∧
    ∃ hdr, hdrAt d off = .ok hdr ∧ hdr.agNum = k

/-- Device contents that tell of `n` AGs. -/
structure Sane (s : Superblock) (top n : Nat) (H : Nat → Nat → Prop) (d : Bytes) (len : Nat) :
    Prop where
  maps : ∀ off, MapPlace s off → ∀ m, mapAt s.agmapLength d off = .ok m → Good s top H n m
  sbs : ∀ off, SbPlace s top off → ∀ sb, sbAt d off = .ok sb → Same s n sb
  heads : Heads s top H d len
  journal : 0 < s.journalLength → ∀ i < s.blocksize, d (s.journalStart * s.blocksize + i) = 0

/-- A write that keeps the numbering: outside AG 0 and the headers, or a whole record. -/
inductive Mild (s : Superblock) (top n : Nat) (H : Nat → Nat → Prop) (w : Write) : Prop
  | away : top * s.blocksize ≤ w.off →
      (∀ k off, H k off → k ≠ 0 → w.off + w.len ≤ off ∨ off + s.blocksize ≤ w.off) →
      Mild s top n H w
  | superblock {sb : Superblock} : SbPlace s top w.off → w.len = SB_SIZE → w.data = sb.toBytes →
      Same s n sb → Mild s top n H w
  | map {m : AgMap} : MapPlace s w.off → w.len = s.agmapLength →
      m.toBytes s.agmapLength = .ok w.data →
      Good s top H n m → Mild s top n H w

/-- The bytes that no resize may change. -/
def Fixed (s : Superblock) (H : Nat → Nat → Prop) (i : Nat) : Prop :=
  (s.blocksize ≤ i ∧ i < 2 * s.blocksize) ∨
  (s.journalStart * s.blocksize ≤ i ∧ i < s.journalStart * s.blocksize + s.blocksize) ∨
  ∃ k off, H k off ∧ k ≠ 0 ∧ off ≤ i ∧ i < off + s.blocksize

end

variable {s : Superblock} {top n : Nat} {H : Nat → Nat → Prop}

namespace Grounded

theorem positive (ground : Grounded s top) : 0 < s.blocksize :=
  Nat.lt_of_lt_of_le (by decide) ground.block

theorem last (ground : Grounded s top) : top * s.blocksize = (top - 1) * s.blocksize +
    s.blocksize := by
  have positive := ground.positive
  have journal := ground.journal
  have some_block : top ≠ 0 := by
    rintro rfl
    rw [Nat.zero_sub, Nat.zero_mul] at journal
    omega
  rw [← Nat.succ_mul, Nat.succ_eq_add_one, Nat.sub_add_cancel (Nat.pos_of_ne_zero some_block)]

end Grounded

section

variable [Crc32c]

theorem mapAt_congr {len : Nat} {d d' : Bytes} {off : Nat}
    (same : ∀ i < len, d' (off + i) = d (off + i)) :
    mapAt len d' off = mapAt len d off := by
  rw [mapAt, mapAt, clip_congr fun i hi => show drop off d' i = drop off d i from same i hi]

theorem sbAt_congr {d d' : Bytes} {off : Nat} (same : ∀ i < SB_SIZE, d' (off + i) = d (off + i)) :
    sbAt d' off = sbAt d off := by
  rw [sbAt, sbAt, clip_congr fun i hi => show drop off d' i = drop off d i from same i hi]

theorem hdrAt_congr {d d' : Bytes} {off off' : Nat}
    (same : ∀ i < AGHDR_SIZE, d' (off' + i) = d (off + i)) :
    hdrAt d' off' = hdrAt d off := by
  rw [hdrAt, hdrAt, clip_congr fun i hi => show drop off' d' i = drop off d i from same i hi]

theorem mapAt_whole {m : AgMap} {len : Nat} {b d : Bytes} {off : Nat} (fits : m.Fits)
    (small : len < 2 ^ 32)
    (room : AGMAP_HDR ≤ len) (bytes : m.toBytes len = .ok b) (same : ∀ i < len, d (off + i) = b i) :
    mapAt len d off = .ok m := by
  rw [mapAt, clip_congr fun i hi => show drop off d i = b i from same i hi]
  exact AgMap.parse_toBytes fits small room bytes

theorem sbAt_whole {sb : Superblock} {d : Bytes} {off : Nat} (fits : sb.Fits)
    (same : ∀ i < SB_SIZE, d (off + i) = sb.toBytes i) : sbAt d off = .ok sb := by
  rw [sbAt, clip_congr fun i hi => show drop off d i = sb.toBytes i from same i hi,
      Superblock.parse_clip]
  exact Superblock.parse_toBytes fits

theorem Heads.congr {d d' : Bytes} {len len' : Nat} (ground : Grounded s top)
    (heads : Heads s top H d len)
    (same : ∀ i, Fixed s H i → d' i = d i) (longer : len ≤ len') : Heads s top H d' len' := by
  have block := ground.block
  have hdr : AGHDR_SIZE ≤ s.blocksize := Nat.le_trans (by decide) block
  refine ⟨Nat.le_trans heads.long longer, ?_, fun k off site later => ?_⟩
  · rw [hdrAt_congr fun i hi => same _ (.inl ⟨by omega, by omega⟩)]
    exact heads.zero
  · obtain ⟨low, inside, found⟩ := heads.sites k off site later
    refine ⟨low, Nat.le_trans inside longer, ?_⟩
    rw [hdrAt_congr fun i hi => same _ (.inr (.inr ⟨k, off, site, later, by omega, by omega⟩))]
    exact found

theorem Mild.fixed {w : Write} {d : Bytes} {len i : Nat} (mild : Mild s top n H w)
    (ground : Grounded s top)
    (heads : Heads s top H d len) (fixed : Fixed s H i) : ¬ (w.off ≤ i ∧ i < w.off + w.len) := by
  have block := ground.block
  have header := ground.header
  have copies := ground.copies
  have journal := ground.journal
  have last := ground.last
  rcases mild with ⟨low, misses⟩ | ⟨place, whole, -, -⟩ | ⟨place, whole, -, -⟩
  · rcases fixed with first | record | ⟨k, off, site, later, range⟩
    · omega
    · omega
    · have apart := misses k off site later
      omega
  · rcases fixed with first | record | ⟨k, off, site, later, range⟩
    · rcases place with place | place <;> omega
    · rcases place with place | place <;> omega
    · have low := (heads.sites k off site later).1
      rcases place with place | place <;> omega
  · rcases fixed with first | record | ⟨k, off, site, later, range⟩
    · rcases place with place | place <;> omega
    · rcases place with place | place <;> omega
    · have low := (heads.sites k off site later).1
      rcases place with place | place <;> omega

theorem Mild.of_mapPlace {w : Write} (mild : Mild s top n H w) (ground : Grounded s top)
    (place : MapPlace s w.off) : ∃ m, m.toBytes s.agmapLength = .ok w.data ∧ Good s top H n m := by
  have positive := ground.positive
  have header := ground.header
  have copies := ground.copies
  have journal := ground.journal
  have last := ground.last
  have room : 24 ≤ s.agmapLength := ground.room
  rcases mild with ⟨low, -⟩ | ⟨other, -, -, -⟩ | ⟨-, -, bytes, good⟩
  · rcases place with place | place <;> omega
  · rcases place with place | place <;> rcases other with other | other <;> omega
  · exact ⟨_, bytes, good⟩

theorem Mild.of_sbPlace {w : Write} (mild : Mild s top n H w) (ground : Grounded s top)
    (place : SbPlace s top w.off) : ∃ sb, w.data = sb.toBytes ∧ Same s n sb := by
  have positive := ground.positive
  have header := ground.header
  have copies := ground.copies
  have journal := ground.journal
  have last := ground.last
  have room : 24 ≤ s.agmapLength := ground.room
  rcases mild with ⟨low, -⟩ | ⟨-, -, bytes, same⟩ | ⟨other, -, -, -⟩
  · rcases place with place | place <;> omega
  · exact ⟨_, bytes, same⟩
  · rcases place with place | place <;> rcases other with other | other <;> omega

/-- What is at the places of the records came from the old contents or from a kept write, and
nothing else has changed. -/
theorem Sane.congr {d d' : Bytes} {len len' : Nat} (ground : Grounded s top)
    (sane : Sane s top n H d len)
    (maps : ∀ off, MapPlace s off → ∀ m, mapAt s.agmapLength d' off = .ok m →
      (∀ i < s.agmapLength, d' (off + i) = d (off + i)) ∨ ∃ w, Mild s top n H w ∧ w.off = off ∧
        ∀ i < s.agmapLength, d' (off + i) = w.data i)
    (sbs : ∀ off, SbPlace s top off → ∀ sb, sbAt d' off = .ok sb →
      (∀ i < SB_SIZE, d' (off + i) = d (off + i)) ∨ ∃ w, Mild s top n H w ∧ w.off = off ∧
        ∀ i < SB_SIZE, d' (off + i) = w.data i)
    (same : ∀ i, Fixed s H i → d' i = d i) (longer : len ≤ len') : Sane s top n H d' len' := by
  refine ⟨?_, ?_, sane.heads.congr ground same longer, ?_⟩
  · intro off place m parsed
    rcases maps off place m parsed with old | ⟨w, mild, rfl, written⟩
    · rw [mapAt_congr old] at parsed
      exact sane.maps off place m parsed
    · obtain ⟨m', bytes, good⟩ := mild.of_mapPlace ground place
      rw [mapAt_whole good.fits ground.small ground.room bytes written] at parsed
      cases parsed
      exact good
  · intro off place sb parsed
    rcases sbs off place sb parsed with old | ⟨w, mild, rfl, written⟩
    · rw [sbAt_congr old] at parsed
      exact sane.sbs off place sb parsed
    · obtain ⟨sb', bytes, good⟩ := mild.of_sbPlace ground place
      rw [bytes] at written
      rw [sbAt_whole good.fits written] at parsed
      cases parsed
      exact good
  · intro some_blocks i hi
    rw [same _ (.inr (.inl ⟨by omega, by omega⟩))]
    exact sane.journal some_blocks i hi

theorem Mild.apply_map {w : Write} (mild : Mild s top n H w) (ground : Grounded s top) (d : Bytes)
    {off : Nat}
    (place : MapPlace s off) : (∀ i < s.agmapLength, w.apply d (off + i) = d (off + i)) ∨
      (w.off = off ∧ ∀ i < s.agmapLength, w.apply d (off + i) = w.data i) := by
  have block := ground.block
  have header := ground.header
  have copies := ground.copies
  have journal := ground.journal
  have last := ground.last
  have missed : (w.off + w.len ≤ off ∨ off + s.agmapLength ≤ w.off) →
      ∀ i < s.agmapLength, w.apply d (off + i) = d (off + i) :=
    fun apart i hi => copyAt_of_not_mem (by omega)
  rcases mild with ⟨low, -⟩ | ⟨other, whole, -, -⟩ | ⟨other, whole, -, -⟩
  · left
    apply missed
    rcases place with place | place <;> omega
  · left
    apply missed
    rcases place with place | place <;> rcases other with other | other <;> omega
  · by_cases here : w.off = off
    · right
      refine ⟨here, fun i hi => ?_⟩
      rw [Write.apply, copyAt_of_mem (by omega), here, Nat.add_sub_cancel_left]
    · left
      apply missed
      rcases place with place | place <;> rcases other with other | other <;> omega

theorem Mild.apply_sb {w : Write} (mild : Mild s top n H w) (ground : Grounded s top) (d : Bytes)
    {off : Nat}
    (place : SbPlace s top off) : (∀ i < SB_SIZE, w.apply d (off + i) = d (off + i)) ∨
      (w.off = off ∧ ∀ i < SB_SIZE, w.apply d (off + i) = w.data i) := by
  have block := ground.block
  have header := ground.header
  have copies := ground.copies
  have journal := ground.journal
  have last := ground.last
  have missed : (w.off + w.len ≤ off ∨ off + SB_SIZE ≤ w.off) →
      ∀ i < SB_SIZE, w.apply d (off + i) = d (off + i) :=
    fun apart i hi => copyAt_of_not_mem (by omega)
  rcases mild with ⟨low, -⟩ | ⟨other, whole, -, -⟩ | ⟨other, whole, -, -⟩
  · left
    apply missed
    rcases place with place | place <;> omega
  · by_cases here : w.off = off
    · right
      refine ⟨here, fun i hi => ?_⟩
      rw [Write.apply, copyAt_of_mem (by omega), here, Nat.add_sub_cancel_left]
    · left
      apply missed
      rcases place with place | place <;> rcases other with other | other <;> omega
  · left
    apply missed
    rcases place with place | place <;> rcases other with other | other <;> omega

theorem Mild.apply_fixed {w : Write} {d e : Bytes} {len i : Nat} (mild : Mild s top n H w)
    (ground : Grounded s top) (heads : Heads s top H e len) (fixed : Fixed s H i) :
    w.apply d i = d i := by
  have outside := mild.fixed ground heads fixed
  exact copyAt_of_not_mem (by omega)

theorem Sane.apply {w : Write} {d : Bytes} {len len' : Nat} (ground : Grounded s top)
    (sane : Sane s top n H d len) (mild : Mild s top n H w) (longer : len ≤ len') :
    Sane s top n H (w.apply d) len' := by
  refine sane.congr ground ?_ ?_ (fun i fixed => mild.apply_fixed ground sane.heads fixed) longer
  · intro off place m _
    rcases mild.apply_map ground d place with old | ⟨here, written⟩
    · exact .inl old
    · exact .inr ⟨w, mild, here, written⟩
  · intro off place sb _
    rcases mild.apply_sb ground d place with old | ⟨here, written⟩
    · exact .inl old
    · exact .inr ⟨w, mild, here, written⟩

theorem Sane.applyAll {ws : List Write} {d : Bytes} {len len' : Nat} (ground : Grounded s top)
    (sane : Sane s top n H d len) (mild : ∀ w ∈ ws, Mild s top n H w) (longer : len ≤ len') :
    Sane s top n H (Write.applyAll ws d) len' := by
  induction ws generalizing d with
  | nil =>
      exact ⟨sane.maps, sane.sbs, sane.heads.congr ground (fun _ _ => rfl) longer, sane.journal⟩
  | cons w ws ih =>
      exact ih (sane.apply ground (mild w List.mem_cons_self) (Nat.le_refl _))
        fun v member => mild v (List.mem_cons_of_mem _ member)

/-- The bytes of one write, or those that were there before. -/
def Intact (base : Bytes) (log : List Event) (d : Bytes) (off len : Nat) : Prop :=
  (∀ i < len, d (off + i) = Write.applyAll (Crash.durable log) base (off + i)) ∨
    ∃ w ∈ Crash.pending log, w.off = off ∧ w.len = len ∧ ∀ i < len, d (off + i) = w.data i

/-- CRC32C rejects every AG map, superblock and AG header whose bytes are not those it was computed
over, among them what is not an AG header at all. -/
structure CrcHolds (s : Superblock) (top : Nat) (base : Bytes) (log : List Event) (d : Bytes) :
    Prop where
  maps : ∀ off, MapPlace s off → ∀ m, mapAt s.agmapLength d off = .ok m →
    Intact base log d off s.agmapLength
  sbs : ∀ off, SbPlace s top off → ∀ sb, sbAt d off = .ok sb → Intact base log d off SB_SIZE
  probes : ∀ p ∈ Gofs.probeSizes, p ≠ s.blocksize → ∀ hdr, hdrAt d p ≠ .ok hdr

theorem Sane.crash {base d : Bytes} {log : List Event} {len len' : Nat} (ground : Grounded s top)
    (sane : Sane s top n H (Write.applyAll (Crash.durable log) base) len)
    (mild : ∀ w ∈ Crash.pending log, Mild s top n H w) (state : Crash.State base log d)
    (crc : CrcHolds s top base log d) (longer : len ≤ len') : Sane s top n H d len' := by
  refine sane.congr ground ?_ ?_ ?_ longer
  · intro off place m parsed
    rcases crc.maps off place m parsed with old | ⟨w, member, here, -, written⟩
    · exact .inl old
    · exact .inr ⟨w, mild w member, here, written⟩
  · intro off place sb parsed
    rcases crc.sbs off place sb parsed with old | ⟨w, member, here, -, written⟩
    · exact .inl old
    · exact .inr ⟨w, mild w member, here, written⟩
  · intro i fixed
    apply state.eq_durable
    rintro ⟨w, member, range⟩
    exact (mild w member).fixed ground sane.heads fixed range

theorem Sane.clip {d e : Bytes} {len size : Nat} (ground : Grounded s top)
    (sane : Sane s top n H d len)
    (heads : Heads s top H e size) : Sane s top n H (clip size d) (min len size) := by
  have block := ground.block
  have positive := ground.positive
  have header := ground.header
  have copies := ground.copies
  have journal := ground.journal
  have last := ground.last
  have long := heads.long
  have hdr : AGHDR_SIZE ≤ s.blocksize := Nat.le_trans (by decide) block
  have kept : ∀ i, i < size → Buffer.clip size d i = d i := fun i inside => clip_of_lt d inside
  refine ⟨?_, ?_, ⟨Nat.le_min.mpr ⟨sane.heads.long, long⟩, ?_, fun k off site later => ?_⟩, ?_⟩
  · intro off place m parsed
    rw [mapAt_congr fun i hi =>
        kept (off + i) (by rcases place with place | place <;> omega)] at parsed
    exact sane.maps off place m parsed
  · intro off place sb parsed
    rw [sbAt_congr fun i hi =>
        kept (off + i) (by rcases place with place | place <;> omega)] at parsed
    exact sane.sbs off place sb parsed
  · rw [hdrAt_congr fun i hi => kept (s.blocksize + i) (by omega)]
    exact sane.heads.zero
  · obtain ⟨low, inside, found⟩ := sane.heads.sites k off site later
    have short := (heads.sites k off site later).2.1
    refine ⟨low, Nat.le_min.mpr ⟨inside, short⟩, ?_⟩
    rw [hdrAt_congr fun i hi => kept (off + i) (by omega)]
    exact found
  · intro some_blocks i hi
    rw [kept _ (by omega)]
    exact sane.journal some_blocks i hi

theorem Sane.narrow {H' : Nat → Nat → Prop} {d : Bytes} {len : Nat} (sane : Sane s top n H d len)
    (fewer : ∀ k off, H' k off → H k off)
    (all : ∀ off, MapPlace s off → ∀ m, mapAt s.agmapLength d off = .ok m → ∀ k p, Lists m k p →
    H' k p) :
    Sane s top n H' d len := by
  refine ⟨?_, sane.sbs, ⟨sane.heads.long, sane.heads.zero, ?_⟩, sane.journal⟩
  · intro off place m parsed
    have good := sane.maps off place m parsed
    exact ⟨good.fits, good.count, good.first, good.laid, good.some_block, all off place m parsed⟩
  · exact fun k off site later => sane.heads.sites k off (fewer k off site) later

theorem probeBackup_place {dev : Device} {err : String} {sizes : List Nat} {sb : Superblock}
    {b : Bool}
    (zero : ∃ hdr, hdrAt dev.bytes s.blocksize = .ok hdr ∧ hdr.agNum = 0 ∧ hdr.length = top)
    (others : ∀ p ∈ sizes, p + AGHDR_SIZE ≤ dev.fileLen → p ≠ s.blocksize → ∀ hdr,
    hdrAt dev.bytes p ≠ .ok hdr)
    (found : Gofs.probeBackup dev err sizes = .ok (sb, b)) :
    sbAt dev.bytes ((top - 1) * s.blocksize) = .ok sb := by
  induction sizes with
  | nil => cases found
  | cons p rest ih =>
      have later := ih fun q member => others q (List.mem_cons_of_mem _ member)
      rw [Gofs.probeBackup] at found
      rcases read : dev.pread p AGHDR_SIZE with e | h
      · rw [read] at found
        exact later found
      · obtain ⟨inside, content⟩ : p + AGHDR_SIZE ≤ dev.fileLen ∧
            h = clip AGHDR_SIZE (drop p dev.bytes) := by
          rw [Device.pread] at read
          split at read
          · rename_i inside
            cases read
            exact ⟨inside, rfl⟩
          · cases read
        rw [read, content] at found
        dsimp only at found
        by_cases here : p = s.blocksize
        · subst here
          obtain ⟨hdr, parsed, number, length⟩ := zero
          rw [hdrAt] at parsed
          rw [parsed] at found
          dsimp only at found
          rw [if_neg (not_not_intro number), length] at found
          split at found
          · cases found
          · rcases readBackup : dev.pread ((top - 1) * s.blocksize) SB_SIZE with e | bak
            · rw [readBackup] at found
              exact later found
            · have copy : bak = clip SB_SIZE (drop ((top - 1) * s.blocksize) dev.bytes) := by
                rw [Device.pread] at readBackup
                split at readBackup
                · cases readBackup
                  rfl
                · cases readBackup
              rw [readBackup, copy] at found
              dsimp only at found
              rcases parsedBackup : Superblock.parse (clip SB_SIZE
                  (drop ((top - 1) * s.blocksize) dev.bytes)) with e | sb'
              · rw [parsedBackup] at found
                exact later found
              · rw [parsedBackup] at found
                dsimp only at found
                split at found
                · cases found
                  exact parsedBackup
                · exact later found
        · rcases parsed : AgHeader.parse (clip AGHDR_SIZE (drop p dev.bytes)) with e | hdr
          · rw [parsed] at found
            exact later found
          · exact absurd parsed (others p List.mem_cons_self inside here hdr)

theorem findSuperblock_place {dev : Device} {sb : Superblock} {b : Bool}
    (zero : ∃ hdr, hdrAt dev.bytes s.blocksize = .ok hdr ∧ hdr.agNum = 0 ∧ hdr.length = top)
    (others : ∀ p ∈ Gofs.probeSizes, p + AGHDR_SIZE ≤ dev.fileLen → p ≠ s.blocksize →
      ∀ hdr, hdrAt dev.bytes p ≠ .ok hdr) (found : Gofs.findSuperblock dev = .ok (sb, b)) : ∃ off,
      SbPlace s top off ∧ sbAt dev.bytes off = .ok sb := by
  rw [Gofs.findSuperblock, Device.pread] at found
  split at found
  · cases found
  · rename_i buf read
    split at read
    · cases read
      split at found
      · rename_i sb' parsed
        cases found
        exact ⟨0, .inl rfl, parsed⟩
      · exact ⟨_, .inr rfl, probeBackup_place zero others found⟩
    · cases read

theorem loadAgmap_place {dev : Device} {sb : Superblock} {m : AgMap}
    (offset : sb.agmapOffset = s.agmapOffset)
    (length : sb.agmapLength = s.agmapLength) (loaded : Gofs.loadAgmap dev sb = .ok m) :
    ∃ off, MapPlace s off ∧ mapAt s.agmapLength dev.bytes off = .ok m := by
  have copy : ∀ c m, Gofs.readAgmapCopy dev sb c = .ok m →
      mapAt s.agmapLength dev.bytes (s.agmapOffset + c * s.agmapLength) = .ok m := by
    intro c m read
    rw [Gofs.readAgmapCopy, Device.pread, offset, length] at read
    split at read
    · exact read
    · cases read
  have first : ∀ m, Gofs.readAgmapCopy dev sb 0 = .ok m →
      ∃ off, MapPlace s off ∧ mapAt s.agmapLength dev.bytes off = .ok m := by
    intro m read
    have parsed := copy 0 m read
    rw [Nat.zero_mul, Nat.add_zero] at parsed
    exact ⟨_, .inl rfl, parsed⟩
  have second : ∀ m, Gofs.readAgmapCopy dev sb 1 = .ok m →
      ∃ off, MapPlace s off ∧ mapAt s.agmapLength dev.bytes off = .ok m := by
    intro m read
    have parsed := copy 1 m read
    rw [Nat.one_mul] at parsed
    exact ⟨_, .inr rfl, parsed⟩
  rw [Gofs.loadAgmap] at loaded
  split at loaded
  · rename_i a b one two
    split at loaded
    · cases loaded
      exact second m two
    · cases loaded
      exact first m one
  · rename_i a e one two
    cases loaded
    exact first m one
  · rename_i e b one two
    cases loaded
    exact second m two
  · cases loaded

omit [Crc32c] in
theorem Good.rooted {m : AgMap} {sb : Superblock} (good : Good s top H n m)
    (ground : Grounded s top)
    (same : Same s n sb) : m.Rooted sb := by
  obtain ⟨rest, entries⟩ := good.first
  refine ⟨⟨top, rest, entries, ?_⟩, ?_, ?_, ?_⟩
  · rw [same.journalStart, same.blocksize]
    exact ground.journal
  · rw [same.blocksize]
    exact ground.block
  · rw [same.blocksize, same.agmapOffset]
    have header := ground.header
    omega
  · rw [same.agmapOffset, same.agmapLength, same.journalStart, same.blocksize]
    exact ground.copies

/-- A superblock copy. -/
structure SbWrite (s : Superblock) (top n : Nat) (w : Write) : Prop where
  place : SbPlace s top w.off
  len : w.len = SB_SIZE
  same : ∃ sb, w.data = sb.toBytes ∧ Same s n sb

/-- What a writable open finds, and that it writes at most the superblock copies. -/
structure Opened (s : Superblock) (top n : Nat) (H : Nat → Nat → Prop) (dev : Device) (g : Gofs) :
    Prop where
  map : Good s top H n g.map
  found : ∃ off, MapPlace s off ∧ mapAt s.agmapLength dev.bytes off = .ok g.map
  sb : Same s n g.sb
  size : g.dev.size = dev.size
  fileLen : g.dev.fileLen = dev.fileLen
  one : ∃ off, SbPlace s top off ∧ ∃ sb, sbAt dev.bytes off = .ok sb
  writes : ∃ ws, (∀ w ∈ ws, SbWrite s top n w) ∧ g.dev.log = dev.log ++ ws.map .write ∧
    g.dev.bytes = Write.applyAll ws dev.bytes

/-- An open from the backup writes both superblock copies and then finds nothing to replay. -/
theorem opened_healed {dev : Device} {g : Gofs} {sb : Superblock} {map : AgMap} {size applied : Nat}
    (ground : Grounded s top) (good : Good s top H n map) (same : Same s n sb)
    (laid : map.Laid sb.blocksize size) (gen : sb.gen + 1 < 2 ^ 64)
    (mapped : ∃ off, MapPlace s off ∧ mapAt s.agmapLength dev.bytes off = .ok map)
    (one : ∃ off, SbPlace s top off ∧ ∃ sb, sbAt dev.bytes off = .ok sb)
    (long : top * s.blocksize ≤ dev.fileLen)
    (blank : 0 < sb.journalLength →
      dev.Holds (sb.journalStart * sb.blocksize) sb.blocksize zeros)
    (run : (Gofs.writeSuperblock >>= fun _ => Gofs.replay) { dev, sb, map } = (.ok applied, g)) :
    Opened s top n H dev g := by
  have rooted := good.rooted ground same
  have last := ground.last
  have block := ground.block
  have journal := ground.journal
  have header := ground.header
  have copies := ground.copies
  have positive := ground.positive
  rw [bind_run] at run
  obtain ⟨len, rest, entries, behind⟩ := rooted.first
  obtain ⟨rest', entries'⟩ := good.first
  have whole : len = top := by
    rw [entries] at entries'
    injection entries' with first
    injection first
  subst whole
  rw [Gofs.writeSuperblock_rooted (g := { dev, sb, map }) entries gen] at run
  have kept : Same s n (Gofs.bumped sb) :=
    ⟨{ same.fits with gen := gen }, same.nextAg, same.blocksize, same.agmapOffset,
      same.agmapLength, same.journalStart, same.journalLength, same.head⟩
  set ws : List Write := [⟨0, SB_SIZE, (Gofs.bumped sb).toBytes⟩,
    ⟨(len - 1) * s.blocksize, SB_SIZE, (Gofs.bumped sb).toBytes⟩] with listed
  set healed : Gofs := ⟨(dev.pwrite 0 SB_SIZE (Gofs.bumped sb).toBytes).pwrite
    ((len - 1) * sb.blocksize) SB_SIZE (Gofs.bumped sb).toBytes, Gofs.bumped sb, map,
    fun _ => none⟩ with after
  have idle : healed.Idle := by
    refine ⟨same.head, fun some_blocks => ?_⟩
    have apart : 0 + SB_SIZE ≤ sb.journalStart * sb.blocksize := by
      rw [same.journalStart, same.blocksize]
      omega
    have below : sb.journalStart * sb.blocksize + sb.blocksize ≤
        (len - 1) * sb.blocksize := by
      rw [same.journalStart, same.blocksize]
      exact journal
    exact ((blank some_blocks).pwrite (.inr apart) _).pwrite (.inl below) _
  have still := Gofs.replay_idle (g := healed)
    ⟨rooted.first, rooted.block, rooted.primary, rooted.copies⟩ laid idle
  have result := (show Gofs.replay healed = (.ok applied, g) from run).symm.trans still
  obtain ⟨-, same_state⟩ := Prod.mk.inj result
  subst same_state
  refine ⟨good, mapped, kept, rfl, ?_, one, ws, ?_, ?_, ?_⟩
  · show max (max dev.fileLen (0 + SB_SIZE))
        ((len - 1) * sb.blocksize + SB_SIZE) = dev.fileLen
    rw [same.blocksize]
    omega
  · intro w member
    rw [listed] at member
    rcases List.mem_cons.mp member with rfl | member
    · exact ⟨.inl rfl, rfl, _, rfl, kept⟩
    · cases List.mem_singleton.mp member
      exact ⟨.inr rfl, rfl, _, rfl, kept⟩
  · show (dev.log ++ [_]) ++ [_] = dev.log ++ ws.map .write
    rw [List.append_assoc, same.blocksize]
    rfl
  · show copyAt (copyAt dev.bytes _ _ _) ((len - 1) * sb.blocksize) _ _ = _
    rw [same.blocksize]
    rfl

theorem openRw_opened {dev : Device} {g : Gofs} (ground : Grounded s top)
    (sane : Sane s top n H dev.bytes dev.fileLen)
    (places : ∀ sb b, Gofs.findSuperblock dev = .ok (sb, b) →
      ∃ off, SbPlace s top off ∧ sbAt dev.bytes off = .ok sb)
    (opened : Gofs.openRw dev = .ok g) : Opened s top n H dev g := by
  rw [Gofs.openRw] at opened
  split at opened
  · cases opened
  · rename_i sb fromBackup found
    split at opened
    · cases opened
    · rename_i map loaded
      obtain ⟨off, place, parsed⟩ := places sb fromBackup found
      have same := sane.sbs off place sb parsed
      obtain ⟨mapOff, mapPlace, mapParsed⟩ := loadAgmap_place same.agmapOffset same.agmapLength
          loaded
      have good := sane.maps mapOff mapPlace map mapParsed
      have rooted := good.rooted ground same
      obtain ⟨size, laid⟩ := good.laid
      rw [← same.blocksize] at laid
      have long := sane.heads.long
      have last := ground.last
      have journal := ground.journal
      have blank : 0 < sb.journalLength → dev.Holds (sb.journalStart * sb.blocksize) sb.blocksize
          zeros := by
        intro some_blocks
        rw [same.journalLength] at some_blocks
        rw [same.journalStart, same.blocksize]
        exact ⟨by omega, fun i hi => sane.journal some_blocks i hi⟩
      have one : ∃ off, SbPlace s top off ∧ ∃ sb, sbAt dev.bytes off = .ok sb :=
          ⟨off, place, sb, parsed⟩
      dsimp only at opened
      split at opened
      · rename_i applied g' run
        cases opened
        simp only [bind_run, get_run, ite_run] at run
        split at run
        · rename_i stale
          by_cases gen : sb.gen + 1 < 2 ^ 64
          · exact opened_healed ground good same laid gen ⟨mapOff, mapPlace, mapParsed⟩ one long
              blank run
          · simp only [Gofs.writeSuperblock, bind_run, get_run, ite_run] at run
            rw [if_pos (by omega)] at run
            cases run
        · have still := Gofs.replay_idle (g := { dev, sb, map }) rooted laid ⟨same.head, blank⟩
          have result := run.symm.trans still
          cases result
          exact ⟨good, ⟨mapOff, mapPlace, mapParsed⟩, same, rfl, rfl, one, [],
              fun w member => absurd member List.not_mem_nil,
            (List.append_nil _).symm, rfl⟩
      · cases opened

end

end FiveFs.Numbering
