import FiveFs.Numbering

/-! Every resize call keeps the numbering, also when it fails, and leaves a log that a power cut may
stop anywhere but between a changed AG map and the superblock that goes with it. -/

namespace FiveFs.Numbering

open Buffer Prog Crash

/-- The length a file of `len` bytes has after the writes. -/
def reach (len : Nat) (ws : List Write) : Nat := ws.foldl (fun n w => max n (w.off + w.len)) len

theorem reach_append (len : Nat) (ws vs : List Write) :
    reach len (ws ++ vs) = reach (reach len ws) vs :=
  List.foldl_append

theorem le_reach (len : Nat) (ws : List Write) : len ≤ reach len ws := by
  induction ws generalizing len with
  | nil => exact Nat.le_refl _
  | cons w ws ih => exact Nat.le_trans (Nat.le_max_left _ _) (ih _)

theorem end_le_reach {len : Nat} {ws : List Write} {w : Write} (member : w ∈ ws) :
    w.off + w.len ≤ reach len ws := by
  induction ws generalizing len with
  | nil => cases member
  | cons v ws ih =>
      rcases List.mem_cons.mp member with rfl | later
      · exact Nat.le_trans (Nat.le_max_right _ _) (le_reach _ _)
      · exact ih later

section

variable [Crc32c] (s : Superblock) (top : Nat) (base : Bytes) (len : Nat)

/-- A log at which the device keeps its numbering whatever part of the pending writes is lost. -/
def Calm (log : List Event) : Prop := ∃ n H,
  Sane s top n H (Write.applyAll (durable log) base) (reach len (durable log)) ∧
    ∀ w ∈ pending log, Mild s top n H w

/-- An AG map is on its way to the device whose number of entries is not the one that a superblock
copy there has. -/
def Swaps (log : List Event) : Prop := ∃ w ∈ pending log, MapPlace s w.off ∧
  ∃ m, AgMap.parse (clip s.agmapLength w.data) s.agmapLength = .ok m ∧
    ∃ off, SbPlace s top off ∧ ∃ sb, sbAt (Write.applyAll (durable log) base) off = .ok sb ∧
      sb.nextAg ≠ m.entries.length

/-- Wherever the power is cut. -/
def Trail (log : List Event) : Prop := ∀ l, l <+: log → Calm s top base len l ∨ Swaps s top base l

/-- The invariant of a volume with `N` AGs in memory on a device that tells of `n`. -/
structure Live (n : Nat) (H : Nat → Nat → Prop) (N : Nat) (g : Gofs) : Prop where
  trail : Trail s top base len g.dev.log
  sane : Sane s top n H (Write.applyAll (durable g.dev.log) base) (reach len (durable g.dev.log))
  one : ∃ off, SbPlace s top off ∧ ∃ sb, sbAt (Write.applyAll (durable g.dev.log) base) off = .ok sb
  pend : ∀ w ∈ pending g.dev.log, Mild s top n H w ∧ ¬ MapPlace s w.off
  heads : Heads s top H g.dev.bytes g.dev.fileLen
  map : Good s top H N g.map
  sb : Same s N g.sb
  size : g.dev.size < 2 ^ 64

/-- A call that fails keeps the invariant; one that panics ends the program. -/
def Stops (e : Err) (g : Gofs) : Prop :=
  Trail s top base len g.dev.log ∧ ∀ m, e = .bail m → ∃ n H N, Live s top base len n H N g

/-- The header of AG `k` has been written at `p`. -/
structure Arrived (k p : Nat) (g : Gofs) : Prop where
  header : ∃ hdr, hdrAt g.dev.bytes p = .ok hdr ∧ hdr.agNum = k
  inside : p + s.blocksize ≤ g.dev.fileLen
  long : p + s.blocksize ≤ reach len (durable g.dev.log ++ pending g.dev.log)
  same : ∀ i < s.blocksize,
    g.dev.bytes (p + i) = Write.applyAll (durable g.dev.log ++ pending g.dev.log) base (p + i)

end

variable [Crc32c] {s : Superblock} {top : Nat} {base : Bytes} {len n N k p : Nat}
    {H : Nat → Nat → Prop} {g : Gofs}

theorem Trail.concat {log : List Event} (trail : Trail s top base len log) {e : Event}
    (next : Calm s top base len (log ++ [e]) ∨ Swaps s top base (log ++ [e])) :
    Trail s top base len (log ++ [e]) := by
  intro l before
  rcases List.prefix_concat_iff.mp before with rfl | earlier
  · exact next
  · exact trail l earlier

omit [Crc32c] in
theorem log_write (log : List Event) (w : Write) : durable (log ++ [.write w]) = durable log ∧
    pending (log ++ [.write w]) = pending log ++ [w] :=
  ⟨durable_writes log [w], pending_writes log [w]⟩

theorem one_apply {d : Bytes} {w : Write} (ground : Grounded s top) (mild : Mild s top n H w)
    (one : ∃ off, SbPlace s top off ∧ ∃ sb, sbAt d off = .ok sb) :
    ∃ off, SbPlace s top off ∧ ∃ sb, sbAt (w.apply d) off = .ok sb := by
  obtain ⟨off, place, sb, parsed⟩ := one
  rcases mild.apply_sb ground d place with old | ⟨rfl, written⟩
  · exact ⟨off, place, sb, (sbAt_congr old).trans parsed⟩
  · obtain ⟨sb', bytes, same⟩ := mild.of_sbPlace ground place
    rw [bytes] at written
    exact ⟨w.off, place, sb', sbAt_whole same.fits written⟩

theorem one_applyAll {ws : List Write} {d : Bytes} (ground : Grounded s top)
    (mild : ∀ w ∈ ws, Mild s top n H w)
    (one : ∃ off, SbPlace s top off ∧ ∃ sb, sbAt d off = .ok sb) :
    ∃ off, SbPlace s top off ∧ ∃ sb, sbAt (Write.applyAll ws d) off = .ok sb := by
  induction ws generalizing d with
  | nil => exact one
  | cons w ws ih =>
      exact ih (fun v member => mild v (List.mem_cons_of_mem _ member))
        (one_apply ground (mild w List.mem_cons_self) one)

namespace Live

theorem stops (live : Live s top base len n H N g) (e : Err) : Stops s top base len e g :=
  ⟨live.trail, fun _ _ => ⟨n, H, N, live⟩⟩

theorem write (live : Live s top base len n H N g) (ground : Grounded s top) {off m : Nat}
    {b : Bytes}
    (mild : Mild s top n H ⟨off, m, b⟩) (no_map : ¬ MapPlace s off) :
    Live s top base len n H N { g with dev := g.dev.pwrite off m b } := by
  obtain ⟨durable', pending'⟩ := log_write g.dev.log ⟨off, m, b⟩
  have pend : ∀ w ∈ pending (g.dev.log ++ [.write ⟨off, m, b⟩]), Mild s top n H w ∧
      ¬ MapPlace s w.off := by
    intro w member
    rw [pending'] at member
    rcases List.mem_append.mp member with old | new
    · exact live.pend w old
    · cases List.mem_singleton.mp new
      exact ⟨mild, no_map⟩
  have sane : Sane s top n H (Write.applyAll (durable (g.dev.log ++ [.write ⟨off, m, b⟩])) base)
      (reach len (durable (g.dev.log ++ [.write ⟨off, m, b⟩]))) := by
    rw [durable']
    exact live.sane
  refine ⟨live.trail.concat (.inl ⟨n, H, sane, fun w member => (pend w member).1⟩), sane, ?_, pend,
      ?_, live.map,
    live.sb, live.size⟩
  · have same : Write.applyAll (durable (g.dev.pwrite off m b).log) base =
        Write.applyAll (durable g.dev.log) base :=
        congrArg (fun ws => Write.applyAll ws base) durable'
    rw [same]
    exact live.one
  · exact live.heads.congr ground (fun i fixed => mild.apply_fixed ground live.heads fixed)
        (Nat.le_max_left _ _)

theorem sync (live : Live s top base len n H N g) (ground : Grounded s top) :
    Live s top base len n H N { g with dev := g.dev.sync } := by
  have durable' : durable (g.dev.log ++ [.sync]) = durable g.dev.log ++ pending g.dev.log :=
      durable_sync _
  have pending' : pending (g.dev.log ++ [.sync]) = [] := pending_sync _
  have mild : ∀ w ∈ pending g.dev.log, Mild s top n H w := fun w member => (live.pend w member).1
  have sane : Sane s top n H (Write.applyAll (durable (g.dev.log ++ [.sync])) base)
      (reach len (durable (g.dev.log ++ [.sync]))) := by
    rw [durable', Write.applyAll_append, reach_append]
    exact live.sane.applyAll ground mild (le_reach _ _)
  refine ⟨live.trail.concat (.inl ⟨n, H, sane, ?_⟩), sane, ?_, ?_, live.heads, live.map, live.sb,
      live.size⟩
  · rw [pending']
    exact fun w member => absurd member List.not_mem_nil
  · have same : Write.applyAll (durable g.dev.sync.log) base =
        Write.applyAll (pending g.dev.log) (Write.applyAll (durable g.dev.log) base) :=
      (congrArg (fun ws => Write.applyAll ws base) durable').trans (Write.applyAll_append _ _ _)
    rw [same]
    exact one_applyAll ground mild live.one
  · show ∀ w ∈ pending (g.dev.log ++ [.sync]), _
    rw [pending']
    exact fun w member => absurd member List.not_mem_nil

theorem put (live : Live s top base len n H N g) {N' : Nat} {map : AgMap} {sb : Superblock}
    (good : Good s top H N' map) (same : Same s N' sb) :
    Live s top base len n H N' { g with map, sb } :=
  ⟨live.trail, live.sane, live.one, live.pend, live.heads, good, same, live.size⟩

end Live

omit [Crc32c] in
theorem Good.widen {H' : Nat → Nat → Prop} {m : AgMap} (good : Good s top H n m)
    (more : ∀ k off, H k off → H' k off) : Good s top H' n m :=
  ⟨good.fits, good.count, good.first, good.laid, good.some_block,
      fun k off lists => more k off (good.listed k off lists)⟩

namespace Arrived

theorem write (arrived : Arrived s base len k p g) (off m : Nat) (b : Bytes)
    (apart : off + m ≤ p ∨ p + s.blocksize ≤ off) (block : AGHDR_SIZE ≤ s.blocksize) :
    Arrived s base len k p { g with dev := g.dev.pwrite off m b } := by
  obtain ⟨durable', pending'⟩ := log_write g.dev.log ⟨off, m, b⟩
  have missed : ∀ i < s.blocksize, (g.dev.pwrite off m b).bytes (p + i) = g.dev.bytes (p + i) :=
    fun i hi => copyAt_of_not_mem (by omega)
  have log : durable (g.dev.pwrite off m b).log ++ pending (g.dev.pwrite off m b).log =
      (durable g.dev.log ++ pending g.dev.log) ++ [⟨off, m, b⟩] := by
    show durable (g.dev.log ++ [.write ⟨off, m, b⟩]) ++ pending
        (g.dev.log ++ [.write ⟨off, m, b⟩]) = _
    rw [durable', pending', List.append_assoc]
  refine ⟨?_, Nat.le_trans arrived.inside (Nat.le_max_left _ _), ?_, fun i hi => ?_⟩
  · show ∃ hdr, hdrAt (g.dev.pwrite off m b).bytes p = .ok hdr ∧ hdr.agNum = k
    rw [hdrAt_congr fun i hi => missed i (by omega)]
    exact arrived.header
  · show _ ≤ reach len (durable (g.dev.pwrite off m b).log ++ pending (g.dev.pwrite off m b).log)
    rw [log, reach_append]
    exact Nat.le_trans arrived.long (le_reach _ _)
  · show (g.dev.pwrite off m b).bytes (p + i) =
      Write.applyAll (durable (g.dev.pwrite off m b).log ++ pending (g.dev.pwrite off m b).log) base
      (p + i)
    rw [log, missed i hi, arrived.same i hi, Write.applyAll_append _ [⟨off, m, b⟩],
        Write.applyAll_cons,
      Write.applyAll_nil, Write.apply, copyAt_of_not_mem]
    show p + i < off ∨ off + m ≤ p + i
    omega

omit [Crc32c] in
theorem settled_log (log : List Event) :
    durable (log ++ [.sync]) ++ pending (log ++ [.sync]) = durable log ++ pending log := by
  rw [durable_sync, pending_sync, List.append_nil]

theorem sync (arrived : Arrived s base len k p g) :
    Arrived s base len k p { g with dev := g.dev.sync } := by
  have log : durable g.dev.sync.log ++ pending g.dev.sync.log = durable g.dev.log ++ pending
      g.dev.log :=
    settled_log g.dev.log
  refine ⟨arrived.header, arrived.inside, ?_, fun i hi => ?_⟩
  · show _ ≤ reach len (durable g.dev.sync.log ++ pending g.dev.sync.log)
    rw [log]
    exact arrived.long
  · show g.dev.bytes (p + i) = Write.applyAll (durable g.dev.sync.log ++ pending g.dev.sync.log)
        base (p + i)
    rw [log]
    exact arrived.same i hi

end Arrived

theorem Live.extend (live : Live s top base len n H N g) (block : AGHDR_SIZE ≤ s.blocksize)
    (quiet : pending g.dev.log = []) (arrived : Arrived s base len k p g)
    (low : top * s.blocksize ≤ p) :
    Live s top base len n (fun k' p' => H k' p' ∨ (k' = k ∧ p' = p)) N g := by
  obtain ⟨hdr, long, same⟩ : (∃ hdr, hdrAt g.dev.bytes p = .ok hdr ∧ hdr.agNum = k) ∧
      p + s.blocksize ≤ reach len (durable g.dev.log) ∧
      ∀ i < s.blocksize, g.dev.bytes (p + i) = Write.applyAll (durable g.dev.log) base (p + i) := by
    have long := arrived.long
    have same := arrived.same
    rw [quiet, List.append_nil] at long same
    exact ⟨arrived.header, long, same⟩
  refine ⟨live.trail, ⟨?_, live.sane.sbs, ⟨live.sane.heads.long, live.sane.heads.zero, ?_⟩,
      live.sane.journal⟩,
    live.one, ?_, ⟨live.heads.long, live.heads.zero, ?_⟩, live.map.widen fun _ _ => .inl, live.sb,
    live.size⟩
  · exact fun off place m parsed => (live.sane.maps off place m parsed).widen fun _ _ => .inl
  · rintro k' p' (old | ⟨rfl, rfl⟩) later
    · exact live.sane.heads.sites k' p' old later
    · refine ⟨low, long, ?_⟩
      rw [hdrAt_congr fun i hi => (same i (by omega)).symm]
      exact hdr
  · rw [quiet]
    exact fun w member => absurd member List.not_mem_nil
  · rintro k' p' (old | ⟨rfl, rfl⟩) later
    · exact live.heads.sites k' p' old later
    · exact ⟨low, arrived.inside, hdr⟩

section

variable (s top)

/-- The AG map and the superblock, two copies each. -/
def records (b : Bytes) (sb : Superblock) : List Write :=
  [⟨s.agmapOffset, s.agmapLength, b⟩, ⟨s.agmapOffset + s.agmapLength, s.agmapLength, b⟩,
    ⟨0, SB_SIZE, sb.toBytes⟩, ⟨(top - 1) * s.blocksize, SB_SIZE, sb.toBytes⟩]

end

theorem records_mild {m : AgMap} {sb : Superblock} {b : Bytes} (good : Good s top H n m)
    (same : Same s n sb)
    (bytes : m.toBytes s.agmapLength = .ok b) : ∀ w ∈ records s top b sb, Mild s top n H w := by
  intro w member
  simp only [records, List.mem_cons, List.not_mem_nil, or_false] at member
  rcases member with rfl | rfl | rfl | rfl
  · exact .map (.inl rfl) rfl bytes good
  · exact .map (.inr rfl) rfl bytes good
  · exact .superblock (.inl rfl) rfl rfl same
  · exact .superblock (.inr rfl) rfl rfl same

theorem records_stored {m : AgMap} {sb : Superblock} {b d : Bytes} {len : Nat}
    (ground : Grounded s top)
    (good : Good s top H N m) (same : Same s N sb) (bytes : m.toBytes s.agmapLength = .ok b)
    (sane : Sane s top n H d len) : Sane s top N (Lists m) (Write.applyAll (records s top b sb) d)
    len := by
  have block := ground.block
  have positive := ground.positive
  have header := ground.header
  have copies := ground.copies
  have journal := ground.journal
  have room : 24 ≤ s.agmapLength := ground.room
  have mapped : ∀ off, MapPlace s off → ∀ i < s.agmapLength,
      Write.applyAll (records s top b sb) d (off + i) = b i := by
    rintro off (rfl | rfl) i hi
    · simp only [records, Write.applyAll_cons, Write.applyAll_nil, Write.apply]
      rw [copyAt_of_not_mem (by omega), copyAt_of_not_mem (by omega), copyAt_of_not_mem (by omega),
        copyAt_of_mem (by omega), Nat.add_sub_cancel_left]
    · simp only [records, Write.applyAll_cons, Write.applyAll_nil, Write.apply]
      rw [copyAt_of_not_mem (by omega), copyAt_of_not_mem (by omega), copyAt_of_mem (by omega),
        Nat.add_sub_cancel_left]
  have superblock : ∀ off, SbPlace s top off → ∀ i < SB_SIZE,
      Write.applyAll (records s top b sb) d (off + i) = sb.toBytes i := by
    rintro off (rfl | rfl) i hi
    · simp only [records, Write.applyAll_cons, Write.applyAll_nil, Write.apply]
      rw [copyAt_of_not_mem (by omega), copyAt_of_mem (by omega), Nat.add_sub_cancel_left]
    · simp only [records, Write.applyAll_cons, Write.applyAll_nil, Write.apply]
      rw [copyAt_of_mem (by omega), Nat.add_sub_cancel_left]
  have kept : ∀ i, Fixed s H i → Write.applyAll (records s top b sb) d i = d i := by
    intro i fixed
    apply Write.applyAll_of_not_covers
    rintro ⟨w, member, range⟩
    exact (records_mild good same bytes w member).fixed ground sane.heads fixed range
  have heads := sane.heads.congr ground kept (Nat.le_refl _)
  refine ⟨?_, ?_, ⟨heads.long, heads.zero, fun k off lists =>
      heads.sites k off (good.listed k off lists)⟩, ?_⟩
  · intro off place m' parsed
    rw [mapAt_whole good.fits ground.small ground.room bytes (mapped off place)] at parsed
    cases parsed
    exact ⟨good.fits, good.count, good.first, good.laid, good.some_block, fun _ _ lists => lists⟩
  · intro off place sb' parsed
    rw [sbAt_whole same.fits (superblock off place)] at parsed
    cases parsed
    exact same
  · intro some_blocks i hi
    rw [kept _ (.inr (.inl ⟨by omega, by omega⟩))]
    exact sane.journal some_blocks i hi

theorem Trail.writes {log : List Event} (trail : Trail s top base len log) (ws : List Write)
    (each : ∀ vs, vs <+: ws → vs ≠ [] →
      Calm s top base len (log ++ vs.map .write) ∨ Swaps s top base (log ++ vs.map .write)) :
    Trail s top base len (log ++ ws.map .write) := by
  intro l before
  rcases List.prefix_or_prefix_of_prefix before (List.prefix_append log _) with early | ⟨mid, rfl⟩
  · exact trail l early
  · obtain ⟨vs, part, rfl⟩ := List.prefix_map_iff.mp ((List.prefix_append_right_inj log).mp before)
    by_cases none : vs = []
    · rw [none, List.map_nil, List.append_nil]
      exact trail log (List.prefix_refl log)
    · exact each vs part none

theorem Live.records_each (live : Live s top base len n H N g) (ground : Grounded s top) {m : AgMap}
    {sb : Superblock} {b : Bytes} (good : Good s top H N m) (same : Same s N sb)
    (bytes : m.toBytes s.agmapLength = .ok b) {vs : List Write} (part : vs <+: records s top b sb)
    (some_write : vs ≠ []) : Calm s top base len (g.dev.log ++ vs.map .write) ∨
      Swaps s top base (g.dev.log ++ vs.map .write) := by
  by_cases count : N = n
  · left
    subst count
    refine ⟨N, H, ?_, ?_⟩
    · rw [durable_writes]
      exact live.sane
    · rw [pending_writes]
      intro w member
      rcases List.mem_append.mp member with old | new
      · exact (live.pend w old).1
      · exact records_mild good same bytes w (part.subset new)
  · right
    obtain ⟨off, place, sb', parsed⟩ := live.one
    refine ⟨⟨s.agmapOffset, s.agmapLength, b⟩, ?_, .inl rfl, m, ?_, off, place, sb', ?_, ?_⟩
    · rw [pending_writes]
      apply List.mem_append_right
      rcases vs with _ | ⟨v, rest⟩
      · exact absurd rfl some_write
      · rw [records, List.cons_prefix_cons] at part
        rw [part.1]
        exact List.mem_cons_self
    · exact AgMap.parse_toBytes good.fits ground.small ground.room bytes
    · rw [durable_writes]
      exact parsed
    · rw [(live.sane.sbs off place sb' parsed).nextAg, good.count]
      exact fun equal => count equal.symm

omit [Crc32c] in
theorem Good.backup {m : AgMap} (good : Good s top H n m) (bs : Nat) :
    Gofs.backupOff m bs = some ((top - 1) * bs) := by
  obtain ⟨rest, entries⟩ := good.first
  rw [Gofs.backupOff, entries]
  simp only [Nat.zero_add]

omit [Crc32c] in
theorem Good.bump {m : AgMap} (good : Good s top H n m) {gen : Nat} (small : gen < 2 ^ 64) :
    Good s top H n ⟨gen, m.entries⟩ :=
  ⟨⟨small, good.fits.count, good.fits.entries⟩, good.count, good.first,
      good.laid.imp fun _ laid => ⟨laid.placed, laid.apart⟩,
    good.some_block, good.listed⟩

theorem increase_stops (live : Live s top base len n H N g) (width a b : Nat) :
    wp (Gofs.increase width a b) (fun r g' => g' = g ∧ a + b < 2 ^ width ∧ r = a + b)
      (Stops s top base len) g := by
  rw [Gofs.increase, wp_ite]
  split
  · rename_i small
    exact ⟨rfl, small, rfl⟩
  · exact live.stops _

theorem subtract_stops (live : Live s top base len n H N g) (a b : Nat) :
    wp (Gofs.subtract a b) (fun r g' => g' = g ∧ b ≤ a ∧ r = a - b) (Stops s top base len) g := by
  rw [Gofs.subtract, wp_ite]
  split
  · rename_i small
    exact ⟨rfl, small, rfl⟩
  · exact live.stops _

theorem Live.stored (live : Live s top base len n H N g) (ground : Grounded s top) {m : AgMap}
    {sb : Superblock}
    {b : Bytes} (good : Good s top H N m) (same : Same s N sb)
    (bytes : m.toBytes s.agmapLength = .ok b) :
    Live s top base len N (Lists m) N
      { g with dev := (g.dev.pwriteAll (records s top b sb)).sync, map := m, sb } := by
  have mild := records_mild good same bytes
  have listed : Good s top (Lists m) N m :=
    ⟨good.fits, good.count, good.first, good.laid, good.some_block, fun _ _ lists => lists⟩
  have log : (g.dev.pwriteAll (records s top b sb)).sync.log =
      g.dev.log ++ (records s top b sb).map .write ++ [.sync] := by
    rw [Device.sync, Device.pwriteAll_log]
  have durable' : durable (g.dev.pwriteAll (records s top b sb)).sync.log =
      durable g.dev.log ++ pending g.dev.log ++ records s top b sb := by
    rw [log, durable_sync, durable_writes, pending_writes, List.append_assoc]
  have pending' : pending (g.dev.pwriteAll (records s top b sb)).sync.log = [] := by
    rw [log, pending_sync]
  have before : Sane s top n H (Write.applyAll (durable g.dev.log ++ pending g.dev.log) base)
      (reach len (durable g.dev.log ++ pending g.dev.log ++ records s top b sb)) := by
    rw [Write.applyAll_append, List.append_assoc, reach_append]
    exact live.sane.applyAll ground (fun w member => (live.pend w member).1) (le_reach _ _)
  have sane : Sane s top N (Lists m) (Write.applyAll
      (durable (g.dev.pwriteAll (records s top b sb)).sync.log) base)
      (reach len (durable (g.dev.pwriteAll (records s top b sb)).sync.log)) := by
    rw [durable', Write.applyAll_append]
    exact records_stored ground good same bytes before
  have calm : Calm s top base len (g.dev.pwriteAll (records s top b sb)).sync.log := by
    refine ⟨N, Lists m, sane, ?_⟩
    rw [pending']
    exact fun w member => absurd member List.not_mem_nil
  refine ⟨?_, sane, ?_, ?_, ?_, listed, same, live.size⟩
  · have trail := Trail.writes live.trail _ fun vs part some_write =>
      live.records_each ground good same bytes part some_write
    show Trail s top base len (g.dev.pwriteAll (records s top b sb)).sync.log
    rw [log] at calm ⊢
    exact trail.concat (.inl calm)
  · refine ⟨0, .inl rfl, sb, sbAt_whole same.fits fun i hi => ?_⟩
    have positive := ground.positive
    have copies := ground.copies
    have journal := ground.journal
    have header := ground.header
    have block := ground.block
    show Write.applyAll (durable (g.dev.pwriteAll (records s top b sb)).sync.log) base
        (0 + i) = sb.toBytes i
    rw [durable', Write.applyAll_append]
    simp only [records, Write.applyAll_cons, Write.applyAll_nil, Write.apply]
    rw [copyAt_of_not_mem (by omega), copyAt_of_mem (by omega), Nat.zero_add, Nat.sub_zero]
  · show ∀ w ∈ pending (g.dev.pwriteAll (records s top b sb)).sync.log, _
    rw [pending']
    exact fun w member => absurd member List.not_mem_nil
  · have kept : ∀ i, Fixed s H i → (g.dev.pwriteAll (records s top b sb)).bytes i = g.dev.bytes
        i := by
      intro i fixed
      rw [Device.pwriteAll_bytes]
      apply Write.applyAll_of_not_covers
      rintro ⟨w, member, range⟩
      exact (mild w member).fixed ground live.heads fixed range
    have grows : g.dev.fileLen ≤ (g.dev.pwriteAll (records s top b sb)).fileLen :=
      Nat.le_trans (Device.pwrite_grows g.dev _ _ _) (Nat.le_trans (Device.pwrite_grows _ _ _ _)
        (Nat.le_trans (Device.pwrite_grows _ _ _ _) (Device.pwrite_grows _ _ _ _)))
    have heads := live.heads.congr ground kept grows
    exact ⟨heads.long, heads.zero, fun k off lists => heads.sites k off (good.listed k off lists)⟩

theorem persistMap_spec (ground : Grounded s top) (live : Live s top base len n H N g) :
    wp Gofs.persistMap (fun _ g' => Live s top base len N (Lists g'.map) N g' ∧
      g'.map.entries = g.map.entries ∧ g'.dev.size = g.dev.size) (Stops s top base len) g := by
  rw [Gofs.persistMap, wp_bind, Gofs.writeAgmap, wp_bind, wp_get, wp_bind]
  refine wp_mono (increase_stops live _ _ _) ?_ fun _ _ stops => stops
  rintro gen _ ⟨rfl, small, rfl⟩
  rename_i g
  rw [wp_bind, wp_modify, wp_bind, wp_get, wp_bind, wp_ofResult]
  have good := live.map.bump small
  have bumped := live.put good live.sb
  split
  · rename_i b bytes
    have bytes' : (AgMap.mk (g.map.gen + 1) g.map.entries).toBytes s.agmapLength = .ok b := by
      rw [← live.sb.agmapLength]
      exact bytes
    rw [wp_bind, Gofs.pwrite, wp_modify, Gofs.pwrite, wp_modify, wp_bind]
    simp only [Gofs.writeSuperblock, wp_bind, wp_get, wp_ite, wp_panicWith, wp_modify, Gofs.pwrite]
    have step : ∀ sb', Same s N sb' → ∀ vs, vs <+: records s top b sb' → vs ≠ [] →
        Calm s top base len (g.dev.log ++ vs.map .write) ∨
        Swaps s top base (g.dev.log ++ vs.map .write) :=
      fun sb' same vs part some_write => live.records_each ground good same bytes' part some_write
    split
    · refine ⟨?_, fun m bail => by cases bail⟩
      have trail := live.trail.writes [⟨s.agmapOffset, s.agmapLength, b⟩,
        ⟨s.agmapOffset + s.agmapLength, s.agmapLength, b⟩] fun vs part some_write =>
          step g.sb live.sb vs (part.trans ⟨[_, _], rfl⟩) some_write
      show Trail s top base len ((g.dev.log ++ [.write ⟨g.sb.agmapOffset, g.sb.agmapLength, b⟩]) ++
        [.write ⟨g.sb.agmapOffset + g.sb.agmapLength, g.sb.agmapLength, b⟩])
      rw [live.sb.agmapOffset, live.sb.agmapLength, List.append_assoc]
      exact trail
    · rename_i gen
      have same : Same s N { g.sb with gen := g.sb.gen + 1 } :=
          ⟨{ live.sb.fits with gen := Nat.lt_of_not_le gen }, live.sb.nextAg,
        live.sb.blocksize, live.sb.agmapOffset, live.sb.agmapLength, live.sb.journalStart,
        live.sb.journalLength,
        live.sb.head⟩
      have backup : Gofs.backupOff ⟨g.map.gen + 1, g.map.entries⟩ g.sb.blocksize =
          some ((top - 1) * s.blocksize) := by rw [good.backup, live.sb.blocksize]
      have stored := bumped.stored ground good same bytes'
      rw [records, ← live.sb.agmapOffset, ← live.sb.agmapLength] at stored
      simp only [backup, Gofs.sync]
      exact ⟨stored, rfl, rfl⟩
  · exact bumped.stops _

theorem Arrived.of_write {off m : Nat} {b : Bytes} (block : AGHDR_SIZE ≤ s.blocksize)
    (whole : s.blocksize ≤ m)
    (header : ∃ hdr, AgHeader.parse (clip AGHDR_SIZE b) = .ok hdr ∧ hdr.agNum = k) (g : Gofs) :
    Arrived s base len k off { g with dev := g.dev.pwrite off m b } := by
  obtain ⟨durable', pending'⟩ := log_write g.dev.log ⟨off, m, b⟩
  have log : durable (g.dev.pwrite off m b).log ++ pending (g.dev.pwrite off m b).log =
      (durable g.dev.log ++ pending g.dev.log) ++ [⟨off, m, b⟩] := by
    show durable (g.dev.log ++ [.write ⟨off, m, b⟩]) ++ pending
        (g.dev.log ++ [.write ⟨off, m, b⟩]) = _
    rw [durable', pending', List.append_assoc]
  have written : ∀ d : Bytes, ∀ i < s.blocksize, copyAt d off m b (off + i) = b i := by
    intro d i hi
    rw [copyAt_of_mem (by omega), Nat.add_sub_cancel_left]
  refine ⟨?_, Nat.le_trans (Nat.add_le_add_left whole off) (Nat.le_max_right _ _), ?_,
      fun i hi => ?_⟩
  · obtain ⟨hdr, parsed, number⟩ := header
    refine ⟨hdr, ?_, number⟩
    rw [← parsed, hdrAt]
    congr 1
    exact clip_congr fun i hi => written g.dev.bytes i (by omega)
  · show _ ≤ reach len (durable (g.dev.pwrite off m b).log ++ pending (g.dev.pwrite off m b).log)
    rw [log]
    exact Nat.le_trans (Nat.add_le_add_left whole off) (end_le_reach (w := ⟨off, m, b⟩)
      (List.mem_append_right _ (List.mem_singleton_self _)))
  · show copyAt g.dev.bytes off m b (off + i) =
      Write.applyAll (durable (g.dev.pwrite off m b).log ++ pending (g.dev.pwrite off m b).log) base
      (off + i)
    rw [log, Write.applyAll_append _ [⟨off, m, b⟩], Write.applyAll_cons, Write.applyAll_nil,
        Write.apply,
      written _ i hi, written _ i hi]

omit [Crc32c] in
theorem Grounded.no_map (ground : Grounded s top) {off : Nat} (low : top * s.blocksize ≤ off) :
    ¬ MapPlace s off := by
  have positive := ground.positive
  have copies := ground.copies
  have journal := ground.journal
  have last := ground.last
  rintro (place | place) <;> omega

/-- No header of another place lies in a region outside AG 0. -/
structure Clear (s : Superblock) (top : Nat) (H : Nat → Nat → Prop) (off m : Nat) : Prop where
  low : top * s.blocksize ≤ off
  misses : ∀ k p, H k p → k ≠ 0 → off + m ≤ p ∨ p + s.blocksize ≤ off

omit [Crc32c] in
theorem Clear.part {off m : Nat} (clear : Clear s top H off m) (off' m' : Nat) (low : off ≤ off')
    (high : off' + m' ≤ off + m) : Clear s top H off' m' := by
  refine ⟨Nat.le_trans clear.low low, fun k p site later => ?_⟩
  have apart := clear.misses k p site later
  omega

/-- Only contents change. -/
structure Kept (g g' : Gofs) : Prop where
  map : g'.map = g.map
  sb : g'.sb = g.sb
  size : g'.dev.size = g.dev.size

theorem Live.write_clear (live : Live s top base len n H N g) (ground : Grounded s top)
    {off m : Nat} (b : Bytes)
    (clear : Clear s top H off m) : Live s top base len n H N
    { g with dev := g.dev.pwrite off m b } :=
  live.write ground (.away clear.low clear.misses) (ground.no_map clear.low)

theorem pread_stops (live : Live s top base len n H N g) (off m : Nat) : wp (Gofs.pread off m)
    (fun buf g' => g' = g ∧ buf = clip m (drop off g.dev.bytes)) (Stops s top base len) g := by
  unfold wp
  rcases read : g.dev.pread off m with e | buf
  · have run : Gofs.pread off m g = (.error (.bail e), g) := by rw [Gofs.pread, read]; rfl
    rw [run]
    exact live.stops _
  · have run : Gofs.pread off m g = (.ok buf, g) := by rw [Gofs.pread, read]; rfl
    rw [run]
    refine ⟨rfl, ?_⟩
    rw [Device.pread] at read
    split at read
    · cases read
      rfl
    · cases read

theorem copyLoop_spec (ground : Grounded s top) {src dst total : Nat}
    (clear : Clear s top H dst total) (chunk fuel done : Nat)
    (live : Live s top base len n H N g) : wp (Gofs.copyLoop src dst total chunk fuel done)
    (fun _ g' =>
      Live s top base len n H N g' ∧ Kept g g' ∧
        (s.blocksize ≤ done → Arrived s base len k dst g → Arrived s base len k dst g'))
      (Stops s top base len) g := by
  induction fuel generalizing done g with
  | zero => exact ⟨live, ⟨rfl, rfl, rfl⟩, fun _ arrived => arrived⟩
  | succ fuel ih =>
      rw [Gofs.copyLoop, wp_ite]
      split
      · rename_i more
        dsimp only
        rw [wp_bind]
        refine wp_mono (pread_stops live _ _) ?_ fun _ _ stops => stops
        rintro buf _ ⟨rfl, -⟩
        rw [wp_bind, Gofs.pwrite, wp_modify]
        have region := clear.part (dst + done) (min chunk (total - done)) (by omega) (by omega)
        refine wp_mono (ih (done + min chunk (total - done)) (live.write_clear ground buf region))
            ?_
          fun _ _ stops => stops
        rintro _ g' ⟨live', kept, arrives⟩
        refine ⟨live', ⟨kept.map, kept.sb, kept.size⟩, fun behind arrived => arrives (by omega) ?_⟩
        exact arrived.write _ _ buf (.inr (by omega)) (Nat.le_trans (by decide) ground.block)
      · exact ⟨live, ⟨rfl, rfl, rfl⟩, fun _ arrived => arrived⟩

theorem copySegs_spec (ground : Grounded s top) {dest off blocks : Nat} (some_block : 0 < blocks)
    (clear : Clear s top H dest (blocks * s.blocksize))
    (header : ∃ hdr, hdrAt g.dev.bytes off = .ok hdr ∧ hdr.agNum = k)
    (live : Live s top base len n H N g) :
    wp (Gofs.copySegs dest s.blocksize [⟨0, blocks, off⟩])
    (fun _ g' => Live s top base len n H N g' ∧ Kept g g' ∧
      Arrived s base len k dest g') (Stops s top base len) g := by
  have positive := ground.positive
  have block : AGHDR_SIZE ≤ s.blocksize := Nat.le_trans (by decide) ground.block
  have total : s.blocksize ≤ blocks * s.blocksize := Nat.le_mul_of_pos_left _ some_block
  rw [Gofs.copySegs, wp_bind]
  simp only [Nat.zero_mul, Nat.add_zero]
  obtain ⟨fuel, count⟩ : ∃ fuel, blocks * s.blocksize = fuel + 1 :=
      ⟨blocks * s.blocksize - 1, by omega⟩
  have round : s.blocksize ≤ min (CELL_BLOCKS * s.blocksize) (blocks * s.blocksize - 0) := by
    have cell : s.blocksize ≤ CELL_BLOCKS * s.blocksize := Nat.le_mul_of_pos_left _ (by decide)
    omega
  rw [show Gofs.copyLoop off dest (blocks * s.blocksize) (CELL_BLOCKS * s.blocksize)
      (blocks * s.blocksize) 0 =
    Gofs.copyLoop off dest (blocks * s.blocksize) (CELL_BLOCKS * s.blocksize) (fuel + 1)
    0 by rw [← count]]
  rw [Gofs.copyLoop, wp_ite, if_pos (by omega)]
  dsimp only
  rw [wp_bind]
  refine wp_mono (pread_stops live _ _) ?_ fun _ _ stops => stops
  rintro buf _ ⟨rfl, rfl⟩
  rename_i g
  rw [wp_bind, Gofs.pwrite, wp_modify, Nat.zero_add, Nat.add_zero, Nat.add_zero]
  have parsed : ∃ hdr, AgHeader.parse (clip AGHDR_SIZE (clip (min (CELL_BLOCKS * s.blocksize)
      (blocks * s.blocksize - 0)) (drop off g.dev.bytes))) = .ok hdr ∧ hdr.agNum = k := by
    rw [clip_clip_of_le (Nat.le_trans block round)]
    exact header
  have arrived : Arrived s base len k dest _ := Arrived.of_write block round parsed g
  have first := live.write_clear ground (clip (min (CELL_BLOCKS * s.blocksize)
      (blocks * s.blocksize - 0))
    (drop off g.dev.bytes)) (clear.part dest (min (CELL_BLOCKS * s.blocksize)
      (blocks * s.blocksize - 0)) (Nat.le_refl _) (by omega))
  refine wp_mono (copyLoop_spec (k := k) ground clear _ fuel _ first) ?_ fun _ _ stops => stops
  rintro _ g' ⟨live', kept, arrives⟩
  exact ⟨live', ⟨kept.map, kept.sb, kept.size⟩, arrives round arrived⟩

section

omit [Crc32c]

variable {m : AgMap} {e : AgEntry}

theorem Good.zero (good : Good s top H n m) :
    m.entries[0]? = some ⟨AGF_PRESENT ||| AGF_IMMOVABLE, top, [⟨0, top, 0⟩]⟩ := by
  obtain ⟨rest, entries⟩ := good.first
  rw [entries]
  rfl

theorem Good.place (good : Good s top H n m) (entry : m.entries[k]? = some e)
    (present : e.present) :
    ∃ off, e.segs = [⟨0, e.length, off⟩] ∧ off % s.blocksize = 0 ∧ H k off := by
  obtain ⟨size, laid⟩ := good.laid
  obtain ⟨_, off, only, aligned, _⟩ := (laid.placed e (List.mem_of_getElem? entry)).of_present
      present
  exact ⟨off, only, aligned, good.listed k off ⟨e, entry, present, only⟩⟩

theorem Good.behind (good : Good s top H n m) {off size skip : Nat} (later : skip ≠ 0)
    (some_bytes : 0 < size)
    (free : m.overlapsExcluding s.blocksize off size skip = false) : top * s.blocksize ≤ off := by
  have apart := AgMap.apart_of_overlaps free good.zero (Ne.symm later) ⟨0, top, 0⟩
      (List.mem_singleton_self _)
  simp only [AgSegment.devEnd] at apart
  omega

theorem Good.set (good : Good s top H n m) (entry : m.entries[k]? = some e) (later : k ≠ 0)
    {e' : AgEntry}
    {size : Nat} (placed : e'.Placed s.blocksize size) (fits : AgMap.EntryFits e')
    (apart : ∀ i e'', m.entries[i]? = some e'' → i ≠ k → e''.Apart s.blocksize e')
    (some_block : e'.present → 0 < e'.length) :
    Good s top (fun k' p' => H k' p' ∨ (k' = k ∧ e'.present ∧ e'.segs = [⟨0, e'.length, p'⟩])) n
      ⟨m.gen, m.entries.set k e'⟩ := by
  obtain ⟨old, laid⟩ := good.laid
  have wider : m.Laid s.blocksize (max old size) :=
    laid.resize fun e'' member present seg hs =>
      Nat.le_trans (laid.valid.inside e'' member present seg hs) (Nat.le_max_left _ _)
  have placed' : e'.Placed s.blocksize (max old size) := by
    rcases placed with ⟨flags, short, off, only, aligned, inside⟩ | retired
    · exact .inl ⟨flags, short, off, only, aligned, Nat.le_trans inside (Nat.le_max_right _ _)⟩
    · exact .inr retired
  refine ⟨⟨good.fits.gen, ?_, ?_⟩, ?_, ?_, ⟨max old size, wider.set placed' apart m.gen⟩, ?_, ?_⟩
  · rw [List.length_set]
    exact good.fits.count
  · intro e'' member
    rcases List.mem_or_eq_of_mem_set member with old | rfl
    · exact good.fits.entries e'' old
    · exact fits
  · rw [List.length_set]
    exact good.count
  · obtain ⟨rest, entries⟩ := good.first
    obtain ⟨j, rfl⟩ := Nat.exists_eq_succ_of_ne_zero later
    exact ⟨rest.set j e', by rw [entries]; rfl⟩
  · intro e'' member present
    rcases List.mem_or_eq_of_mem_set member with old | rfl
    · exact good.some_block e'' old present
    · exact some_block present
  · rintro k' p' ⟨e'', found, present, only⟩
    by_cases here : k' = k
    · subst here
      have lt := (List.getElem?_eq_some_iff.mp entry).1
      rw [List.getElem?_set_self lt] at found
      cases found
      exact .inr ⟨rfl, present, only⟩
    · rw [List.getElem?_set_ne (Ne.symm here)] at found
      exact .inl (good.listed k' p' ⟨e'', found, present, only⟩)

/-- What `relocate` checks. -/
structure Movable (g : Gofs) (ag dest : Nat) (e : AgEntry) : Prop where
  aligned : dest % g.sb.blocksize = 0
  entry : g.map.entries[ag]? = some e
  present : e.present
  movable : ¬ e.immovable
  inside : dest + e.length * g.sb.blocksize ≤ g.dev.size
  free : g.map.overlapsExcluding g.sb.blocksize dest (e.length * g.sb.blocksize) ag = false

theorem Good.later (good : Good s top H n m) (entry : m.entries[k]? = some e)
    (movable : ¬ e.immovable) :
    k ≠ 0 := by
  rintro rfl
  rw [good.zero] at entry
  cases entry
  apply movable
  exact decide_eq_true (by decide : (AGF_PRESENT ||| AGF_IMMOVABLE) &&& AGF_IMMOVABLE ≠ 0)

end

theorem relocate_spec (ground : Grounded s top) (live : Live s top base len n H N g) {ag dest : Nat}
    (spares : ∀ e, Movable g ag dest e → ∀ k p, H k p → k ≠ 0 →
      dest + e.length * s.blocksize ≤ p ∨ p + s.blocksize ≤ dest) :
    wp (Gofs.relocate ag dest) (fun _ g' => Live s top base len N (Lists g'.map) N g' ∧
        g'.dev.size = g.dev.size)
      (Stops s top base len) g := by
  rw [Gofs.relocate, wp_bind, wp_get]
  dsimp only
  rw [wp_ite]
  split
  · exact live.stops _
  · rename_i aligned
    split
    · exact live.stops _
    · rename_i e entry
      rw [wp_ite]
      split
      · exact live.stops _
      · rename_i present
        rw [wp_ite]
        split
        · exact live.stops _
        · rename_i movable
          rw [wp_ite]
          split
          · exact live.stops _
          · rename_i inside
            rw [wp_ite]
            split
            · exact live.stops _
            · rename_i clash
              have free := Bool.eq_false_iff.mpr clash
              have present' : e.present := Decidable.not_not.mp present
              have misses := spares e ⟨by simpa using aligned, entry, present', movable,
                  Nat.le_of_not_lt inside, free⟩
              have later := live.map.later entry movable
              obtain ⟨off, only, _, site⟩ := live.map.place entry present'
              have member := List.mem_of_getElem? entry
              have some_block := live.map.some_block e member present'
              obtain ⟨_, _, header⟩ := live.heads.sites ag off site later
              have dest_lt : dest < 2 ^ 64 := Nat.lt_of_le_of_lt
                  (Nat.le_trans (Nat.le_add_right _ _)
                (Nat.le_of_not_lt inside)) live.size
              rw [live.sb.blocksize] at free inside aligned ⊢
              have low := live.map.behind later (Nat.mul_pos some_block ground.positive) free
              rw [only, wp_bind]
              refine wp_mono (copySegs_spec ground some_block ⟨low, misses⟩ header live) ?_
                  fun _ _ stops => stops
              rintro _ g₁ ⟨live₁, kept, arrived⟩
              rw [wp_bind, Gofs.sync, wp_modify, wp_bind, Gofs.setEntry, wp_modify]
              have block : AGHDR_SIZE ≤ s.blocksize := Nat.le_trans (by decide) ground.block
              have quiet : pending g₁.dev.sync.log = [] := pending_sync _
              have wider := (live₁.sync ground).extend block quiet arrived.sync low
              have placed : (AgEntry.mk e.flags e.length [⟨0, e.length, dest⟩]).Placed s.blocksize
                  (dest + e.length * s.blocksize) := by
                obtain ⟨size, laid⟩ := live.map.laid
                rcases laid.placed e member with ⟨flags, short, _⟩ | retired
                · exact .inl ⟨flags, short, dest, rfl, by simpa using aligned, Nat.le_refl _⟩
                · rw [AgEntry.present, retired.1] at present'
                  exact absurd present' (by decide)
              have fits := live.map.fits.entries e member
              have moved := live.map.set entry later placed
                ⟨fits.flags, fits.length, (by decide : 1 < 2 ^ 16), fun seg hs => by
                  cases List.mem_singleton.mp hs
                  exact ⟨Nat.two_pow_pos 32, fits.length, dest_lt⟩⟩
                (by
                  intro i e' entry' other seg hs t ht
                  cases List.mem_singleton.mp ht
                  exact AgMap.apart_of_overlaps free entry' other seg hs)
                fun _ => some_block
              have good : Good s top (fun k' p' => H k' p' ∨ (k' = ag ∧ p' = dest)) N
                  ⟨g₁.map.gen, g₁.map.entries.set ag ⟨e.flags, e.length,
                  [⟨0, e.length, dest⟩]⟩⟩ := by
                rw [kept.map]
                refine moved.widen ?_
                rintro k' p' (old | ⟨rfl, _, here⟩)
                · exact .inl old
                · cases here
                  exact .inr ⟨rfl, rfl⟩
              have ready := wider.put good wider.sb
              refine wp_mono (persistMap_spec ground ready) ?_ fun _ _ stops => stops
              rintro _ g' ⟨live', -, size⟩
              exact ⟨live', size.trans kept.size⟩

section

omit [Crc32c]

theorem table_inside {agLen bs : Nat} (large : SB_SIZE ≤ bs) (enough : 1024 ≤ agLen) :
    1 + (rtGeometry agLen bs).2 + 1024 ≤ agLen + 1024 ∧ 2 * (rtGeometry agLen bs).2 ≤ agLen := by
  have whole : 512 ≤ bs := large
  have rounded : (rtGeometry agLen bs).2 ≤ ((agLen + CELL_BLOCKS - 1) / CELL_BLOCKS * 7 + 3) /
      512 + 1 := by
    show (((agLen + CELL_BLOCKS - 1) / CELL_BLOCKS + 3) / 4 + (agLen + CELL_BLOCKS - 1) /
        CELL_BLOCKS * 6 +
      bs - 1) / bs ≤ _
    generalize (agLen + CELL_BLOCKS - 1) / CELL_BLOCKS = cells
    have size : (cells + 3) / 4 + cells * 6 ≤ cells * 7 + 3 := by omega
    calc ((cells + 3) / 4 + cells * 6 + bs - 1) / bs ≤ (cells * 7 + 3 + bs) / bs :=
          Nat.div_le_div_right (by omega)
      _ = (cells * 7 + 3) / bs + 1 := Nat.add_div_right _ (by omega)
      _ ≤ (cells * 7 + 3) / 512 + 1 := Nat.add_le_add_right (Nat.div_le_div_left whole (by decide))
          _
  rw [CELL_BLOCKS] at rounded
  omega

theorem Good.append (good : Good s top H n m) {e : AgEntry} {size : Nat}
    (placed : e.Placed s.blocksize size)
    (fits : AgMap.EntryFits e) (apart : ∀ e' ∈ m.entries, e'.Apart s.blocksize e)
    (some_block : 0 < e.length)
    (count : n + 1 < 2 ^ 32) :
    Good s top (fun k' p' => H k' p' ∨ (k' = n ∧ e.segs = [⟨0, e.length, p'⟩])) (n + 1)
      ⟨m.gen, m.entries ++ [e]⟩ := by
  obtain ⟨old, laid⟩ := good.laid
  have wider : m.Laid s.blocksize (max old size) :=
    laid.resize fun e'' member present seg hs =>
      Nat.le_trans (laid.valid.inside e'' member present seg hs) (Nat.le_max_left _ _)
  have placed' : e.Placed s.blocksize (max old size) := by
    rcases placed with ⟨flags, short, off, only, aligned, inside⟩ | retired
    · exact .inl ⟨flags, short, off, only, aligned, Nat.le_trans inside (Nat.le_max_right _ _)⟩
    · exact .inr retired
  refine ⟨⟨good.fits.gen, ?_, ?_⟩, ?_, ?_, ⟨max old size, wider.append placed' apart m.gen⟩, ?_, ?_⟩
  · rw [List.length_append, good.count]
    exact count
  · intro e' member
    rcases List.mem_append.mp member with old | new
    · exact good.fits.entries e' old
    · cases List.mem_singleton.mp new
      exact fits
  · rw [List.length_append, good.count]
    rfl
  · obtain ⟨rest, entries⟩ := good.first
    exact ⟨rest ++ [e], by rw [entries]; rfl⟩
  · intro e' member present
    rcases List.mem_append.mp member with old | new
    · exact good.some_block e' old present
    · cases List.mem_singleton.mp new
      exact some_block
  · rintro k' p' ⟨e', found, present, only⟩
    by_cases old : k' < m.entries.length
    · rw [List.getElem?_append_left old] at found
      exact .inl (good.listed k' p' ⟨e', found, present, only⟩)
    · rw [List.getElem?_append_right (Nat.le_of_not_lt old)] at found
      have last := (List.getElem?_eq_some_iff.mp found).1
      rw [List.length_singleton] at last
      have here : k' = n := by
        have count := good.count
        omega
      subst here
      rw [good.count, Nat.sub_self] at found
      cases found
      exact .inr ⟨rfl, only⟩

theorem Good.unskipped (good : Good s top H n m) {i : Nat} {e : AgEntry}
    (entry : m.entries[i]? = some e) :
    i ≠ 2 ^ 32 - 1 := by
  have bound := (List.getElem?_eq_some_iff.mp entry).1
  have small := good.fits.count
  omega

end

/-- What `add_ag` checks. -/
structure Addable (g : Gofs) (devOffset bytes : Nat) : Prop where
  aligned : devOffset % g.sb.blocksize = 0
  enough : 1024 ≤ bytes / g.sb.blocksize % 2 ^ 32
  free : g.map.overlaps g.sb.blocksize devOffset bytes = false

omit [Crc32c] in
/-- The map with a new AG, in bytes that no AG has. -/
theorem Good.newAg {m : AgMap} {N agLen devOffset bytes : Nat} (good : Good s top H N m)
    (free : m.overlapsExcluding s.blocksize devOffset bytes (2 ^ 32 - 1) = false)
    (inside : agLen * s.blocksize ≤ bytes) (aligned : devOffset % s.blocksize = 0)
    (typed : devOffset < 2 ^ 64) (some : 0 < agLen) (short : agLen < 2 ^ 32)
    (next : N + 1 < 2 ^ 32) :
    Good s top (fun k' p' => H k' p' ∨ (k' = N ∧ p' = devOffset)) (N + 1)
      ⟨m.gen, m.entries ++ [⟨AGF_PRESENT, agLen, [⟨0, agLen, devOffset⟩]⟩]⟩ := by
  have placed : (⟨AGF_PRESENT, agLen, [⟨0, agLen, devOffset⟩]⟩ : AgEntry).Placed s.blocksize
      (devOffset + agLen * s.blocksize) :=
    .inl ⟨.inl rfl, short, devOffset, rfl, aligned, Nat.le_refl _⟩
  have fits : AgMap.EntryFits ⟨AGF_PRESENT, agLen, [⟨0, agLen, devOffset⟩]⟩ :=
    ⟨(by decide : AGF_PRESENT < 2 ^ 16), short, (by decide : 1 < 2 ^ 16), fun seg hs => by
      cases List.mem_singleton.mp hs
      exact ⟨Nat.two_pow_pos 32, short, typed⟩⟩
  have apart : ∀ e' ∈ m.entries, e'.Apart s.blocksize
      ⟨AGF_PRESENT, agLen, [⟨0, agLen, devOffset⟩]⟩ := by
    intro e' member seg hs t ht
    cases List.mem_singleton.mp ht
    obtain ⟨i, lt, here⟩ := List.getElem_of_mem member
    have entry : m.entries[i]? = Option.some e' := List.getElem?_eq_some_iff.mpr ⟨lt, here⟩
    have clear := AgMap.apart_of_overlaps free entry (good.unskipped entry) seg hs
    simp only [AgSegment.devEnd] at clear ⊢
    omega
  refine (good.append placed fits apart some next).widen ?_
  rintro k' p' (old | ⟨rfl, here⟩)
  · exact .inl old
  · cases here
    exact .inr ⟨rfl, rfl⟩

omit [Crc32c] in
theorem newAg_hint {agLen bs : Nat} (large : SB_SIZE ≤ bs) (enough : 1024 ≤ agLen)
    (short : agLen < 2 ^ 32) :
    (1 + (rtGeometry agLen bs).2 + CELL_BLOCKS - 1) / CELL_BLOCKS * CELL_BLOCKS < 2 ^ 32 := by
  have small := table_inside large enough
  rw [CELL_BLOCKS]
  omega

theorem newAg_header {agLen rsvd hint : Nat} (free : Nat) (ag : N < 2 ^ 32) (short : agLen < 2 ^ 32)
    (reserved : rsvd < 2 ^ 32) (hinted : hint < 2 ^ 32) :
    ∃ h, AgHeader.parse (clip AGHDR_SIZE (clip AGHDR_SIZE (AgHeader.toBytes {
        agNum := N
        gen := 1
        length := agLen
        freeBlocks := free % 2 ^ 32
        rsvdBlocks := rsvd
        fullBlocks := 0
        allocRoot := 1
        inoHint := 0
        dataHint := hint
        tblArena := 0 }))) = .ok h ∧ h.agNum = N := by
  rw [clip_clip, AgHeader.parse_clip]
  refine ⟨_, AgHeader.parse_toBytes ?_, rfl⟩
  exact ⟨ag, (by decide : 1 < 2 ^ 64), short, Nat.mod_lt _ (by decide), reserved,
    Nat.two_pow_pos 32, (by decide : 1 < 2 ^ 32), Nat.two_pow_pos 32, hinted, Nat.two_pow_pos 32⟩

/-- A new AG's header and table on the device, before the map has it. -/
theorem Live.newAg_written (live : Live s top base len n H N g) (ground : Grounded s top)
    {off rtBlocks : Nat} (block : AGHDR_SIZE ≤ s.blocksize) (header table : Bytes)
    (clear : Clear s top H off ((1 + rtBlocks) * s.blocksize))
    (parsed : ∃ h, AgHeader.parse (clip AGHDR_SIZE header) = .ok h ∧ h.agNum = N) :
    let g' := { g with
      dev := ((g.dev.pwrite off s.blocksize header).pwrite (off + 1 * s.blocksize)
        (rtBlocks * s.blocksize) table).sync }
    Live s top base len n H N g' ∧ Arrived s base len N off g' := by
  have rows : (1 + rtBlocks) * s.blocksize = s.blocksize + rtBlocks * s.blocksize := by
    rw [Nat.add_mul, Nat.one_mul]
  have first := live.write_clear ground header
    (clear.part off s.blocksize (Nat.le_refl _) (by omega))
  have second := first.write_clear ground table
    (clear.part (off + 1 * s.blocksize) (rtBlocks * s.blocksize) (by omega) (by omega))
  have arrived : Arrived s base len N off { g with dev := g.dev.pwrite off s.blocksize header } :=
    Arrived.of_write block (Nat.le_refl _) parsed g
  have kept := arrived.write (off + 1 * s.blocksize) (rtBlocks * s.blocksize) table
    (.inr (by omega)) block
  exact ⟨second.sync ground, kept.sync⟩

/-- The map and the superblock with a new AG whose header is on the device. -/
theorem Live.newAg_mapped (live : Live s top base len n H N g) {off agLen bytes free rsvd : Nat}
    (block : AGHDR_SIZE ≤ s.blocksize) (arrived : Arrived s base len N off g)
    (quiet : pending g.dev.log = [])
    (apart : g.map.overlapsExcluding s.blocksize off bytes (2 ^ 32 - 1) = false)
    (inside : agLen * s.blocksize ≤ bytes) (aligned : off % s.blocksize = 0)
    (typed : off < 2 ^ 64) (some : 0 < agLen) (short : agLen < 2 ^ 32) (some_bytes : 0 < bytes)
    (next : N + 1 < 2 ^ 32) (freeSmall : free < 2 ^ 64) (rsvdSmall : rsvd < 2 ^ 64) :
    Live s top base len n (fun k' p' => H k' p' ∨ (k' = N ∧ p' = off)) (N + 1)
      { g with
        map := { g.map with
          entries := g.map.entries ++ [⟨AGF_PRESENT, agLen, [⟨0, agLen, off⟩]⟩] }
        sb := { g.sb with nextAg := N + 1, freeBlocks := free, rsvdBlocks := rsvd } } := by
  have low := live.map.behind (by decide) some_bytes apart
  have wider := live.extend block quiet arrived low
  have good := live.map.newAg apart inside aligned typed some short next
  have same : Same s (N + 1)
      { g.sb with nextAg := N + 1, freeBlocks := free, rsvdBlocks := rsvd } :=
    ⟨{ wider.sb.fits with nextAg := next, freeBlocks := freeSmall, rsvdBlocks := rsvdSmall }, rfl,
      wider.sb.blocksize, wider.sb.agmapOffset, wider.sb.agmapLength, wider.sb.journalStart,
      wider.sb.journalLength, wider.sb.head⟩
  exact wider.put good same

theorem addAg_spec (ground : Grounded s top) (live : Live s top base len n H N g)
    {devOffset bytes : Nat}
    (typed : devOffset < 2 ^ 64) (spares : Addable g devOffset bytes → ∀ k p, H k p → k ≠ 0 →
      devOffset + (1 + (rtGeometry (bytes / s.blocksize % 2 ^ 32) s.blocksize).2) * s.blocksize ≤
      p ∨
        p + s.blocksize ≤ devOffset) :
    wp (Gofs.addAg devOffset bytes) (fun _ g' => ∃ N', Live s top base len N' (Lists g'.map) N' g')
      (Stops s top base len) g := by
  have block : AGHDR_SIZE ≤ s.blocksize := Nat.le_trans (by decide) ground.block
  rw [Gofs.addAg, wp_bind, wp_get]
  dsimp only
  rw [wp_ite]
  split
  · exact live.stops _
  · rename_i aligned
    rw [wp_ite]
    split
    · exact live.stops _
    · rename_i enough
      rw [wp_ite]
      split
      · exact live.stops _
      · rename_i clash
        have free := Bool.eq_false_iff.mpr clash
        have addable : Addable g devOffset bytes :=
            ⟨by simpa using aligned, Nat.le_of_not_lt enough, free⟩
        have misses := spares addable
        rw [wp_bind]
        refine wp_mono (subtract_stops live _ _) ?_ fun _ _ stops => stops
        rintro cells _ ⟨rfl, -, -⟩
        rename_i g
        rw [wp_bind]
        refine wp_mono (subtract_stops live _ _) ?_ fun _ _ stops => stops
        rintro rsvd _ ⟨rfl, -, rsvdSmall⟩
        rename_i g
        rw [AgMap.overlaps] at free
        rw [live.sb.blocksize] at free aligned enough
        rw [live.sb.blocksize, live.sb.nextAg]
        set agLen := bytes / s.blocksize % 2 ^ 32 with agLen_def
        have enough' : 1024 ≤ agLen := Nat.le_of_not_lt enough
        have agLen_lt : agLen < 2 ^ 32 := Nat.mod_lt _ (by decide)
        have inside : agLen * s.blocksize ≤ bytes := Gofs.newLength_le bytes s.blocksize
        have some_bytes : 0 < bytes :=
          Nat.lt_of_lt_of_le (Nat.mul_pos (by omega) ground.positive) inside
        have low := live.map.behind (by decide) some_bytes free
        have clear : Clear s top H devOffset ((1 + (rtGeometry agLen s.blocksize).2) *
            s.blocksize) := ⟨low, misses⟩
        have count : N < 2 ^ 32 := live.map.count ▸ live.map.fits.count
        have parsed := newAg_header (cells * CELL_BLOCKS) count agLen_lt
          (by omega : rsvd < 2 ^ 32) (newAg_hint ground.block enough' agLen_lt)
        rw [wp_bind, Gofs.pwrite, wp_modify, wp_bind, Gofs.pwrite, wp_modify, wp_bind, Gofs.sync,
            wp_modify, wp_bind]
        obtain ⟨written, arrived⟩ := live.newAg_written ground block _
          (Gofs.newAgTable agLen (rtGeometry agLen s.blocksize).1
            ((1 + (rtGeometry agLen s.blocksize).2 + CELL_BLOCKS - 1) / CELL_BLOCKS)).1
          clear parsed
        refine wp_mono (subtract_stops written _ _) ?_ fun _ _ stops => stops
        rintro more g₁ ⟨state, -, -⟩
        have live₁ : Live s top base len n H N g₁ := state ▸ written
        have arrived₁ : Arrived s base len N devOffset g₁ := state ▸ arrived
        have quiet : pending g₁.dev.log = [] := by
          rw [state]
          exact pending_sync _
        have map₁ : g₁.map = g.map := by rw [state]
        clear state arrived written
        rw [wp_bind]
        refine wp_mono (increase_stops live₁ _ _ _) ?_ fun _ _ stops => stops
        rintro nextAg _ ⟨rfl, nextSmall, rfl⟩
        rename_i g₁
        rw [wp_bind]
        refine wp_mono (increase_stops live₁ _ _ _) ?_ fun _ _ stops => stops
        rintro free _ ⟨rfl, freeSmall, rfl⟩
        rename_i g₁
        rw [wp_bind]
        refine wp_mono (increase_stops live₁ _ _ _) ?_ fun _ _ stops => stops
        rintro reserved _ ⟨rfl, reservedSmall, rfl⟩
        rename_i g₁
        rw [wp_bind, wp_modify, wp_bind]
        have ready := live₁.newAg_mapped block arrived₁ quiet (map₁ ▸ free) inside
          (by simpa using aligned) typed (by omega) agLen_lt some_bytes nextSmall freeSmall
          reservedSmall
        refine wp_mono (persistMap_spec ground ready) ?_ fun _ _ stops => stops
        rintro _ g' ⟨live', -, -⟩
        exact ⟨N + 1, live'⟩

theorem still_stops {α : Type} {x : Prog Gofs α} (live : Live s top base len n H N g)
    (still : (x g).2 = g) :
    wp x (fun a g' => g' = g ∧ x g = (.ok a, g)) (Stops s top base len) g := by
  unfold wp
  rcases run : x g with ⟨e | a, g'⟩
  · rw [run] at still
    cases still
    exact live.stops e
  · rw [run] at still
    cases still
    exact ⟨rfl, rfl⟩

theorem readAgHeader_still (ag : Nat) (g : Gofs) : (Gofs.readAgHeader ag g).2 = g := by
  have block : ∀ blk, (Gofs.readBlock blk g).2 = g := by
    intro blk
    simp only [Gofs.readBlock, Gofs.resolve, bind_run, get_run]
    rcases g.map.resolve blk g.sb.blocksize with _ | off
    · rfl
    · rfl
  rw [Gofs.readAgHeader, bind_run]
  rcases run : Gofs.readBlock (blkAddr ag (if ag = 0 then 1 else 0)) g with ⟨e | buf, g'⟩
  · have same := block (blkAddr ag (if ag = 0 then 1 else 0))
    rw [run] at same
    exact same
  · have same := block (blkAddr ag (if ag = 0 then 1 else 0))
    rw [run] at same
    dsimp only
    rcases AgHeader.parse buf with e | hdr
    · exact same
    · exact same

theorem retire_spec (ground : Grounded s top) (live : Live s top base len n H N g) (ag : Nat) :
    wp (Gofs.retire ag) (fun _ g' => Live s top base len N (Lists g'.map) N g' ∧
    g'.dev.size = g.dev.size)
      (Stops s top base len) g := by
  rw [Gofs.retire, wp_ite]
  split
  · exact live.stops _
  · rename_i later
    rw [wp_bind]
    refine wp_mono (still_stops live (readAgHeader_still ag g)) ?_ fun _ _ stops => stops
    rintro hdr _ ⟨rfl, -⟩
    rename_i g
    rw [wp_ite]
    split
    · exact live.stops _
    · rw [wp_bind, wp_get]
      split
      · exact live.stops _
      · rename_i e entry
        rw [wp_ite]
        split
        · exact live.stops _
        · have fits := live.map.fits.entries e (List.mem_of_getElem? entry)
          have absent : ¬ (AgEntry.mk AGF_RETIRED e.length []).present = true :=
            (by decide : ¬ decide (AGF_RETIRED &&& AGF_PRESENT ≠ 0) = true)
          have placed : (⟨AGF_RETIRED, e.length, []⟩ : AgEntry).Placed s.blocksize 0 :=
              .inr ⟨rfl, rfl⟩
          have retired := live.map.set entry later placed
            ⟨(by decide : AGF_RETIRED < 2 ^ 16), fits.length, Nat.two_pow_pos 16,
              fun seg hs => absurd hs List.not_mem_nil⟩
            (fun i e'' _ _ seg _ t ht => absurd ht List.not_mem_nil)
            (fun present => absurd present absent)
          have good : Good s top H N ⟨g.map.gen, g.map.entries.set ag
              ⟨AGF_RETIRED, e.length, []⟩⟩ := by
            refine retired.widen ?_
            rintro k' p' (old | ⟨_, present, _⟩)
            · exact old
            · exact absurd present absent
          rw [wp_bind, Gofs.setEntry, wp_modify, wp_bind, wp_get, wp_bind]
          have changed := live.put good live.sb
          refine wp_mono (subtract_stops changed _ _) ?_ fun _ _ stops => stops
          rintro free g₁ ⟨state, -, freeSmall⟩
          rw [wp_bind, wp_modify, wp_bind, wp_get, wp_bind]
          have sb₁ : Same s N { g₁.sb with freeBlocks := free } := by
            rw [state]
            refine ⟨{ live.sb.fits with freeBlocks := ?_ }, live.sb.nextAg, live.sb.blocksize,
                live.sb.agmapOffset,
              live.sb.agmapLength, live.sb.journalStart, live.sb.journalLength, live.sb.head⟩
            have bound := live.sb.fits.freeBlocks
            rw [freeSmall]
            exact Nat.lt_of_le_of_lt (Nat.sub_le _ _) bound
          have live₁ : Live s top base len n H N g₁ := state ▸ changed
          have counted := live₁.put live₁.map sb₁
          refine wp_mono (subtract_stops counted _ _) ?_ fun _ _ stops => stops
          rintro rsvd g₂ ⟨state₂, -, rsvdSmall⟩
          rw [wp_bind, wp_modify]
          have live₂ : Live s top base len n H N g₂ := state₂ ▸ counted
          have sb₂ : Same s N { g₂.sb with rsvdBlocks := rsvd } := by
            refine ⟨{ live₂.sb.fits with rsvdBlocks := ?_ }, live₂.sb.nextAg, live₂.sb.blocksize,
                live₂.sb.agmapOffset,
              live₂.sb.agmapLength, live₂.sb.journalStart, live₂.sb.journalLength, live₂.sb.head⟩
            have bound := counted.sb.fits.rsvdBlocks
            rw [rsvdSmall]
            exact Nat.lt_of_le_of_lt (Nat.sub_le _ _) bound
          have ready := live₂.put live₂.map sb₂
          refine wp_mono (persistMap_spec ground ready) ?_ fun _ _ stops => stops
          rintro _ g' ⟨live', -, size⟩
          refine ⟨live', size.trans ?_⟩
          rw [state₂, state]

/-- The relocation that `shrink` asks for. -/
def Evicts (g : Gofs) (ag : Nat) (e : AgEntry) (newSize dest : Nat) : Prop :=
  (∃ hdr, Gofs.readAgHeader ag g = (.ok hdr, g) ∧ hdr.fullBlocks ≠ 0) ∧
    g.map.findGap g.sb.blocksize (e.length * g.sb.blocksize) newSize = some dest

theorem evict_spec (ground : Grounded s top) (live : Live s top base len n H N g) {ag newSize : Nat}
    {e : AgEntry}
    (spares : ∀ dest e', Evicts g ag e newSize dest → Movable g ag dest e' → ∀ k p, H k p → k ≠ 0 →
      dest + e'.length * s.blocksize ≤ p ∨ p + s.blocksize ≤ dest) :
    wp (Gofs.evict ag e newSize) (fun _ g' => Live s top base len N (Lists g'.map) N g' ∧
      g'.dev.size = g.dev.size) (Stops s top base len) g := by
  rw [Gofs.evict, wp_ite]
  split
  · exact live.stops _
  · rw [wp_bind]
    refine wp_mono (still_stops live (readAgHeader_still ag g)) ?_ fun _ _ stops => stops
    rintro hdr _ ⟨rfl, read⟩
    rename_i g
    rw [wp_ite]
    split
    · exact retire_spec ground live ag
    · rename_i used
      rw [wp_bind, wp_get]
      split
      · exact live.stops _
      · rename_i dest gap
        exact relocate_spec ground live fun e' movable =>
            spares dest e' ⟨⟨hdr, read, used⟩, gap⟩ movable

omit [Crc32c] in
theorem gap_clear {m : AgMap} (good : Good s top (Lists m) n m) {bytes limit dest : Nat}
    (gap : m.findGap s.blocksize bytes limit = some dest) : ∀ k p, Lists m k p → k ≠ 0 →
      dest + bytes ≤ p ∨ p + s.blocksize ≤ dest := by
  rintro k p ⟨e, entry, present, only⟩ -
  have member := List.mem_of_getElem? entry
  have seg : (⟨0, e.length, p⟩ : AgSegment) ∈ m.segs :=
    List.mem_flatMap.mpr ⟨e, member, only ▸ List.mem_singleton_self _⟩
  have apart := AgMap.findGap_clear gap _ seg
  simp only [AgSegment.devEnd] at apart
  have row : s.blocksize ≤ e.length * s.blocksize :=
      Nat.le_mul_of_pos_left _ (good.some_block e member present)
  omega

omit [Crc32c] in
theorem firstBeyond_entry {m : AgMap} {bs newSize ag : Nat} {e : AgEntry}
    (found : Gofs.firstBeyond m bs newSize = some (e, ag)) : m.entries[ag]? = some e :=
  List.mem_zipIdx_iff_getElem?.mp (List.mem_of_find?_eq_some found)

theorem shrinkLoop_current (ground : Grounded s top) (newSize fuel : Nat)
    (live : Live s top base len N (Lists g.map) N g) :
    wp (Gofs.shrinkLoop newSize fuel) (fun _ g' => Live s top base len N (Lists g'.map) N g' ∧
      Gofs.firstBeyond g'.map g'.sb.blocksize newSize = none) (Stops s top base len) g := by
  induction fuel generalizing g with
  | zero => exact live.stops _
  | succ fuel ih =>
      rw [Gofs.shrinkLoop, wp_bind, wp_get]
      split
      · rename_i none
        exact ⟨live, none⟩
      · rename_i e ag first
        rw [wp_bind]
        refine wp_mono (evict_spec ground live ?_) (fun _ g' post => ih post.1) fun _ _ stops =>
            stops
        intro dest e' evicts movable
        have entry := firstBeyond_entry first
        rw [movable.entry] at entry
        cases entry
        have gap := evicts.2
        rw [live.sb.blocksize] at gap
        exact gap_clear live.map gap

theorem shrinkLoop_spec (ground : Grounded s top) (newSize fuel : Nat)
    (live : Live s top base len n H N g)
    (spares : ∀ ag e dest e', Gofs.firstBeyond g.map g.sb.blocksize newSize = some (e, ag) →
      Evicts g ag e newSize dest → Movable g ag dest e' → ∀ k p, H k p → k ≠ 0 →
        dest + e'.length * s.blocksize ≤ p ∨ p + s.blocksize ≤ dest) :
    wp (Gofs.shrinkLoop newSize fuel) (fun _ g' =>
      Gofs.firstBeyond g'.map g'.sb.blocksize newSize = none ∧
        (g' = g ∨ Live s top base len N (Lists g'.map) N g')) (Stops s top base len) g := by
  cases fuel with
  | zero => exact live.stops _
  | succ fuel =>
      rw [Gofs.shrinkLoop, wp_bind, wp_get]
      split
      · rename_i none
        exact ⟨none, .inl rfl⟩
      · rename_i e ag first
        rw [wp_bind]
        refine wp_mono (evict_spec ground live fun dest e' evicts movable =>
            spares ag e dest e' first evicts movable)
          ?_ fun _ _ stops => stops
        rintro _ g' ⟨live', -⟩
        refine wp_mono (shrinkLoop_current ground newSize fuel live') ?_ fun _ _ stops => stops
        exact fun _ g'' post => ⟨post.2, .inr post.1⟩

theorem Live.setLen (live : Live s top base len n H N g) (ground : Grounded s top) {newSize : Nat}
    (typed : newSize < 2 ^ 64) (long : top * s.blocksize ≤ newSize)
    (sites : ∀ k p, H k p → k ≠ 0 → p + s.blocksize ≤ newSize) :
    Live s top base len n H N { g with dev := g.dev.setLen newSize } := by
  have block : AGHDR_SIZE ≤ s.blocksize := Nat.le_trans (by decide) ground.block
  have header := ground.header
  have copies := ground.copies
  have journal := ground.journal
  have last := ground.last
  have file := live.heads.long
  have same : ∀ i, i < g.dev.fileLen → i < newSize →
      (g.dev.setLen newSize).bytes i = g.dev.bytes i :=
    fun i inside short => clip_of_lt _ (by omega)
  refine ⟨live.trail, live.sane, live.one, live.pend, ⟨long, ?_, fun k p site later => ?_⟩,
      live.map, live.sb, typed⟩
  · show ∃ hdr, hdrAt (g.dev.setLen newSize).bytes s.blocksize = .ok hdr ∧ hdr.agNum = 0 ∧
        hdr.length = top
    rw [hdrAt_congr fun i hi => same (s.blocksize + i) (by omega) (by omega)]
    exact live.heads.zero
  · obtain ⟨low, inside, found⟩ := live.heads.sites k p site later
    have short := sites k p site later
    refine ⟨low, short, ?_⟩
    show ∃ hdr, hdrAt (g.dev.setLen newSize).bytes p = .ok hdr ∧ hdr.agNum = k
    rw [hdrAt_congr fun i hi => same (p + i) (by omega) (by omega)]
    exact found

omit [Crc32c] in
theorem Good.within {m : AgMap} (good : Good s top H n m) {newSize : Nat}
    (none : Gofs.firstBeyond m s.blocksize newSize = none) {off : Nat} (lists : Lists m k off) :
    ∃ blocks, 0 < blocks ∧ off + blocks * s.blocksize ≤ newSize ∧
    (k = 0 → blocks = top ∧ off = 0) := by
  obtain ⟨e, entry, present, only⟩ := lists
  refine ⟨e.length, good.some_block e (List.mem_of_getElem? entry) present, ?_, ?_⟩
  · by_contra beyond
    have within := List.find?_eq_none.mp none (e, k) (List.mem_zipIdx_iff_getElem?.mpr entry)
    apply within
    rw [Bool.and_eq_true]
    refine ⟨present, List.any_eq_true.mpr ⟨⟨0, e.length, off⟩, only ▸ List.mem_singleton_self _,
        decide_eq_true ?_⟩⟩
    exact Nat.lt_of_not_le beyond
  · rintro rfl
    rw [good.zero] at entry
    cases entry
    cases only
    exact ⟨rfl, rfl⟩

omit [Crc32c] in
theorem Good.lists_zero {m : AgMap} (good : Good s top H n m) : Lists m 0 0 :=
  ⟨_, good.zero, decide_eq_true (by decide : (AGF_PRESENT ||| AGF_IMMOVABLE) &&& AGF_PRESENT ≠ 0),
  rfl⟩

omit [Crc32c] in
theorem Good.mappedEnd_top {m : AgMap} (good : Good s top H n m) :
    top * s.blocksize ≤ m.mappedEnd s.blocksize := by
  have seg : (⟨0, top, 0⟩ : AgSegment) ∈ m.segs :=
    List.mem_flatMap.mpr ⟨_, List.mem_of_getElem? good.zero, List.mem_singleton_self _⟩
  have inside : _ ≤ m.mappedEnd s.blocksize := AgMap.le_mappedEnd seg
  rwa [AgSegment.devEnd, Nat.zero_add] at inside

theorem shrink_spec (ground : Grounded s top) (live : Live s top base len n H N g) {newSize : Nat}
    (typed : newSize < 2 ^ 64)
    (spares : ∀ ag e dest e', Gofs.firstBeyond g.map g.sb.blocksize newSize = some (e, ag) →
      Evicts g ag e newSize dest → Movable g ag dest e' → ∀ k p, H k p → k ≠ 0 →
        dest + e'.length * s.blocksize ≤ p ∨ p + s.blocksize ≤ dest)
    (sites : Gofs.firstBeyond g.map g.sb.blocksize newSize = none → ∀ k p, H k p → k ≠ 0 →
      p + s.blocksize ≤ newSize) :
    wp (Gofs.shrink newSize) (fun _ g' => ∃ n H, Live s top base len n H N g')
        (Stops s top base len) g := by
  rw [Gofs.shrink, wp_bind, wp_get, wp_bind]
  refine wp_mono (shrinkLoop_spec ground newSize _ live spares) ?_ fun _ _ stops => stops
  rintro _ g' ⟨none, rfl | live'⟩
  · rename_i g
    rw [Gofs.setLen, wp_modify]
    have within := none
    rw [live.sb.blocksize] at within
    obtain ⟨blocks, -, inside, zero⟩ := live.map.within within live.map.lists_zero
    obtain ⟨rfl, -⟩ := zero rfl
    rw [Nat.zero_add] at inside
    exact ⟨n, H, live.setLen ground typed inside (sites none)⟩
  · rw [Gofs.setLen, wp_modify]
    rw [live'.sb.blocksize] at none
    obtain ⟨blocks, -, inside, zero⟩ := live'.map.within none live'.map.lists_zero
    obtain ⟨rfl, -⟩ := zero rfl
    rw [Nat.zero_add] at inside
    refine ⟨N, Lists g'.map, live'.setLen ground typed inside fun k p lists later => ?_⟩
    obtain ⟨blocks', some_block, short, -⟩ := live'.map.within none lists
    have row : s.blocksize ≤ blocks' * s.blocksize := Nat.le_mul_of_pos_left _ some_block
    omega

theorem grow_spec (ground : Grounded s top) (live : Live s top base len n H N g) {newSize : Nat}
    (typed : newSize < 2 ^ 64)
    (spares : Addable g (g.map.mappedEnd s.blocksize) (newSize - g.map.mappedEnd s.blocksize) →
      ∀ k p, H k p → k ≠ 0 → g.map.mappedEnd s.blocksize + (1 + (rtGeometry ((newSize -
        g.map.mappedEnd s.blocksize) / s.blocksize % 2 ^ 32) s.blocksize).2) * s.blocksize ≤ p ∨
          p + s.blocksize ≤ g.map.mappedEnd s.blocksize)
    (sites : g.map.mappedEnd s.blocksize < newSize → g.dev.size < newSize → ∀ k p, H k p → k ≠ 0 →
      p + s.blocksize ≤ newSize) :
    wp (Gofs.grow newSize) (fun _ g' => ∃ N', Live s top base len N' (Lists g'.map) N' g')
      (Stops s top base len) g := by
  rw [Gofs.grow, wp_bind, wp_get]
  dsimp only
  rw [live.sb.blocksize, wp_ite]
  split
  · exact live.stops _
  · rename_i further
    have past : g.map.mappedEnd s.blocksize < newSize := Nat.lt_of_not_le further
    rw [wp_ite]
    split
    · rename_i larger
      rw [wp_bind, Gofs.setLen, wp_modify]
      have inside := live.map.mappedEnd_top
      have longer := live.setLen ground typed (Nat.le_trans inside (Nat.le_of_lt past))
          (sites past larger)
      exact addAg_spec ground longer (Nat.lt_trans past typed) fun addable =>
        spares ⟨addable.aligned, addable.enough, addable.free⟩
    · exact addAg_spec ground live (Nat.lt_trans past typed) spares

end FiveFs.Numbering
