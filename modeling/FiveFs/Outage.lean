import FiveFs.Address
import FiveFs.Labels
import FiveFs.Resizing

/-! Runs of resize calls with power cuts in between, each followed by a writable open, and the
numbering of the AGs in every state they reach. -/

namespace FiveFs

open Buffer Prog FiveFs.Numbering

inductive ResizeCall
  | grow (newSize : Nat)
  | addAg (devOffset bytes : Nat)
  | relocate (ag dest : Nat)
  | retire (ag : Nat)
  | shrink (newSize : Nat)

/-- Sizes and offsets are `u64`, AG ids `u32`. -/
def ResizeCall.Typed : ResizeCall → Prop
  | .grow newSize => newSize < 2 ^ 64
  | .addAg devOffset bytes => devOffset < 2 ^ 64 ∧ bytes < 2 ^ 64
  | .relocate ag dest => ag < 2 ^ 32 ∧ dest < 2 ^ 64
  | .retire ag => ag < 2 ^ 32
  | .shrink newSize => newSize < 2 ^ 64

def ResizeCall.run [Crc32c] : ResizeCall → Prog Gofs Unit
  | .grow newSize => do
      let _ ← Gofs.grow newSize
      return ()
  | .addAg devOffset bytes => do
      let _ ← Gofs.addAg devOffset bytes
      return ()
  | .relocate ag dest => Gofs.relocate ag dest
  | .retire ag => Gofs.retire ag
  | .shrink newSize => Gofs.shrink newSize

/-- A mounted volume, with the contents and the length its file has whatever is lost of the writes
in the log. -/
structure Volume where
  base : Bytes
  len : Nat
  g : Gofs

namespace Volume

/-- Length of the first AG. -/
def top (v : Volume) : Nat :=
  match v.g.map.entries with
  | [] => 0
  | e :: _ => e.length

variable [Crc32c]

/-- An AG other than AG 0 starts at `p` according to the map in memory or one on the device. -/
def On (v : Volume) (k p : Nat) : Prop := k ≠ 0 ∧ (Lists v.g.map k p ∨
  ∃ off, MapPlace v.g.sb off ∧ ∃ m, mapAt v.g.sb.agmapLength v.base off = .ok m ∧ Lists m k p)

/-- No header block of such an AG is in the region. -/
def Misses (v : Volume) (off size : Nat) : Prop :=
  ∀ k p, v.On k p → off + size ≤ p ∨ p + v.g.sb.blocksize ≤ off

/-- None is cut off. -/
def Keeps (v : Volume) (size : Nat) : Prop := ∀ k p, v.On k p → p + v.g.sb.blocksize ≤ size

/-- Header and root table of a new AG. -/
def newAgBytes (v : Volume) (bytes : Nat) : Nat :=
  (1 + (rtGeometry (bytes / v.g.sb.blocksize % 2 ^ 32) v.g.sb.blocksize).2) * v.g.sb.blocksize

end Volume

/-- The call does not write over, or cut off, a header that an AG map copy on the device still
needs. -/
def ResizeCall.Spares [Crc32c] (v : Volume) : ResizeCall → Prop
  | .grow newSize =>
      let past := v.g.map.mappedEnd v.g.sb.blocksize
      (past < newSize → v.g.dev.size < newSize → v.Keeps newSize) ∧
        (Addable v.g past (newSize - past) → v.Misses past (v.newAgBytes (newSize - past)))
  | .addAg devOffset bytes => Addable v.g devOffset bytes → v.Misses devOffset (v.newAgBytes bytes)
  | .relocate ag dest => ∀ e, Movable v.g ag dest e → v.Misses dest (e.length * v.g.sb.blocksize)
  | .retire _ => True
  | .shrink newSize =>
      (Gofs.firstBeyond v.g.map v.g.sb.blocksize newSize = none → v.Keeps newSize) ∧
        ∀ ag e dest e', Gofs.firstBeyond v.g.map v.g.sb.blocksize newSize = some (e, ag) →
          Evicts v.g ag e newSize dest → Movable v.g ag dest e' →
          v.Misses dest (e'.length * v.g.sb.blocksize)

/-- The length that is sure while the call runs: `grow` sets another one at its start. -/
def ResizeCall.floor (v : Volume) : ResizeCall → Nat
  | .grow newSize =>
      if v.g.map.mappedEnd v.g.sb.blocksize < newSize ∧
          v.g.dev.size < newSize then min v.len newSize else v.len
  | _ => v.len

section

variable [Crc32c]

/-- After a call that returned; `shrink` sets the length at its end. -/
def Volume.after (v : Volume) (c : ResizeCall) (g : Gofs) : Volume where
  base := clip g.dev.fileLen (Write.applyAll (Crash.durable g.dev.log) v.base)
  len := min (reach (c.floor v) (Crash.durable g.dev.log)) g.dev.fileLen
  g := { g with dev := { g.dev with log := (Crash.pending g.dev.log).map .write } }

/-- A volume that has just been opened. -/
def Volume.opened (dev : Device) (g : Gofs) : Volume := ⟨dev.bytes, dev.fileLen, g⟩

/-- A step that spares the headers in use and does not part a changed AG map from its superblock: a
call that returns, with or without an error, or a power cut during a call and a writable open. -/
inductive Step (v : Volume) : Volume → Prop
  | returned {c : ResizeCall} {r : Except Err Unit} {g : Gofs} : c.Typed → c.Spares v →
      c.run v.g = (r, g) →
      (∀ m, r ≠ .error (.panic m)) → Step v (v.after c g)
  | cut {c : ResizeCall} {log : List Event} {d : Bytes} {size : Nat} {g : Gofs} : c.Typed →
      c.Spares v →
      v.g.dev.log <+: log → log <+: (c.run v.g).2.dev.log → Crash.State v.base log d →
      CrcHolds v.g.sb v.top v.base log d → reach (c.floor v) (Crash.durable log) ≤ size →
      size < 2 ^ 64 →
      ¬ Swaps v.g.sb v.top v.base log → Gofs.openRw ⟨clip size d, size, size, []⟩ = .ok g →
      Step v (.opened ⟨clip size d, size, size, []⟩ g)

/-- There are as many AGs as the superblock says, and each PRESENT one has its own header, through
which blocks of that AG are allocated. -/
structure Gofs.Numbered (g : Gofs) : Prop where
  count : g.map.entries.length = g.sb.nextAg
  header : ∀ i e, g.map.entries[i]? = some e → e.present →
    ∃ hdr, Gofs.readAgHeader i g = (.ok hdr, g) ∧ hdr.agNum = i
  address : ∀ i e n blk w w', g.map.entries[i]? = some e → e.present → w.fs = g →
    w.t.find (blkAddr i (agHeaderBlock i)) = none → Work.allocExtent i n w = (.ok blk, w') →
    blk / 2 ^ 32 = i

/-- What holds between the calls: nothing but pending writes is in the log, and no place is
protected without need. -/
def Volume.Rest (s : Superblock) (top : Nat) (v : Volume) : Prop := ∃ n H N, ∃ ws : List Write,
  v.g.dev.log = ws.map .write ∧ Live s top v.base v.len n H N v.g ∧ ∀ k p, H k p → k ≠ 0 → v.On k p

end

variable [Crc32c] {s : Superblock} {top n N : Nat} {H : Nat → Nat → Prop} {v : Volume}

namespace Numbering

omit [Crc32c] in
theorem Same.mapPlace {sb : Superblock} (same : Same s N sb) {off : Nat} : MapPlace sb off ↔
    MapPlace s off := by
  rw [MapPlace, MapPlace, same.agmapOffset, same.agmapLength]

omit [Crc32c] in
theorem Same.sbPlace {sb : Superblock} (same : Same s N sb) {off : Nat} : SbPlace sb top off ↔
    SbPlace s top off := by
  rw [SbPlace, SbPlace, same.blocksize]

theorem Same.crcHolds {sb : Superblock} (same : Same s N sb) {base d : Bytes} {log : List Event}
    (crc : CrcHolds sb top base log d) : CrcHolds s top base log d := by
  refine ⟨fun off place m parsed => ?_, fun off place sb' parsed => ?_, fun p member other => ?_⟩
  · rw [← same.agmapLength] at parsed ⊢
    exact crc.maps off (same.mapPlace.mpr place) m parsed
  · exact crc.sbs off (same.sbPlace.mpr place) sb' parsed
  · exact crc.probes p member (same.blocksize ▸ other)

theorem Same.swaps {sb : Superblock} (same : Same s N sb) {base : Bytes} {log : List Event}
    (swaps : Swaps s top base log) : Swaps sb top base log := by
  obtain ⟨w, member, place, m, parsed, off, sbPlace, sb', found, other⟩ := swaps
  refine ⟨w, member, same.mapPlace.mpr place, m, ?_, off, same.sbPlace.mpr sbPlace, sb', found,
      other⟩
  rw [same.agmapLength]
  exact parsed

omit [Crc32c] in
theorem Good.volume_top (good : Good s top H N v.g.map) : v.top = top := by
  obtain ⟨rest, entries⟩ := good.first
  rw [Volume.top, entries]

omit [Crc32c] in
theorem writes_durable (ws : List Write) : Crash.durable (ws.map .write) = [] :=
  Crash.durable_writes [] ws

omit [Crc32c] in
theorem writes_pending (ws : List Write) : Crash.pending (ws.map .write) = ws :=
  Crash.pending_writes [] ws

theorem Trail.of_writes {base : Bytes} {len : Nat} {ws : List Write}
    (sane : Sane s top n H base len)
    (mild : ∀ w ∈ ws, Mild s top n H w) : Trail s top base len (ws.map .write) := by
  intro l before
  obtain ⟨vs, part, rfl⟩ := List.prefix_map_iff.mp before
  refine .inl ⟨n, H, ?_, ?_⟩
  · rw [writes_durable]
    exact sane
  · rw [writes_pending]
    exact fun w member => mild w (part.subset member)

theorem Rest.intro (v : Volume) {ws : List Write} (log : v.g.dev.log = ws.map .write)
    (sane : Sane s top n H v.base v.len)
    (one : ∃ off, SbPlace s top off ∧ ∃ sb, sbAt v.base off = .ok sb)
    (pend : ∀ w ∈ ws, Mild s top n H w ∧ ¬ MapPlace s w.off)
    (heads : Heads s top H v.g.dev.bytes v.g.dev.fileLen)
    (map : Good s top H N v.g.map) (sb : Same s N v.g.sb) (size : v.g.dev.size < 2 ^ 64) :
    v.Rest s top := by
  -- only the places that a map lists are kept
  have fewer : ∀ k p, H k p ∧ (k = 0 ∨ v.On k p) → H k p := fun k p both => both.1
  have listed : ∀ off, MapPlace s off → ∀ m, mapAt s.agmapLength v.base off = .ok m → ∀ k p,
      Lists m k p →
      H k p ∧ (k = 0 ∨ v.On k p) := by
    intro off place m parsed k p lists
    refine ⟨(sane.maps off place m parsed).listed k p lists, ?_⟩
    by_cases first : k = 0
    · exact .inl first
    · rw [← sb.agmapLength] at parsed
      exact .inr ⟨first, .inr ⟨off, sb.mapPlace.mpr place, m, parsed, lists⟩⟩
  have sane' := sane.narrow fewer listed
  have pend' : ∀ w ∈ ws, Mild s top n (fun k p => H k p ∧ (k = 0 ∨ v.On k p)) w ∧
      ¬ MapPlace s w.off := by
    intro w member
    obtain ⟨mild, no_map⟩ := pend w member
    refine ⟨?_, no_map⟩
    rcases mild with ⟨low, misses⟩ | ⟨place, whole, bytes, same⟩ | ⟨place, -, -, -⟩
    · exact .away low fun k off site => misses k off site.1
    · exact .superblock place whole bytes same
    · exact absurd place no_map
  have map' : Good s top (fun k p => H k p ∧ (k = 0 ∨ v.On k p)) N v.g.map := by
    refine ⟨map.fits, map.count, map.first, map.laid, map.some_block,
        fun k p lists => ⟨map.listed k p lists, ?_⟩⟩
    by_cases first : k = 0
    · exact .inl first
    · exact .inr ⟨first, .inl lists⟩
  refine ⟨n, _, N, ws, log, ⟨?_, ?_, ?_, ?_, ?_, map', sb, size⟩,
      fun k p site later => site.2.resolve_left later⟩
  · rw [log]
    exact Trail.of_writes sane' fun w member => (pend' w member).1
  · rw [log, writes_durable]
    exact sane'
  · rw [log, writes_durable]
    exact one
  · rw [log, writes_pending]
    exact pend'
  · exact ⟨heads.long, heads.zero, fun k off site later => heads.sites k off site.1 later⟩

theorem Live.lower {len len' : Nat} {ws : List Write} {base : Bytes} {g : Gofs}
    (live : Live s top base len n H N g)
    (log : g.dev.log = ws.map .write) (long : top * s.blocksize ≤ len')
    (sites : ∀ k p, H k p → k ≠ 0 → p + s.blocksize ≤ len') : Live s top base len' n H N g := by
  have sane := live.sane
  have pend := live.pend
  have one := live.one
  rw [log, writes_durable] at sane one
  rw [log, writes_pending] at pend
  have sane' : Sane s top n H base len' := by
    refine ⟨sane.maps, sane.sbs, ⟨long, sane.heads.zero, fun k p site later => ?_⟩, sane.journal⟩
    obtain ⟨low, -, found⟩ := sane.heads.sites k p site later
    exact ⟨low, sites k p site later, found⟩
  refine ⟨?_, ?_, ?_, ?_, live.heads, live.map, live.sb, live.size⟩
  · rw [log]
    exact Trail.of_writes sane' fun w member => (pend w member).1
  · rw [log, writes_durable]
    exact sane'
  · rw [log, writes_durable]
    exact one
  · rw [log, writes_pending]
    exact pend

/-- Every call that spares the headers in use. -/
theorem call_spec (ground : Grounded s top) {ws : List Write} (log : v.g.dev.log = ws.map .write)
    (live : Live s top v.base v.len n H N v.g) (tight : ∀ k p, H k p → k ≠ 0 → v.On k p)
    {c : ResizeCall}
    (typed : c.Typed) (spares : c.Spares v) :
    wp c.run (fun _ g' => ∃ n H N, Live s top v.base (c.floor v) n H N g')
    (Stops s top v.base (c.floor v)) v.g := by
  have same := live.sb.blocksize
  have misses : ∀ off size, v.Misses off size → ∀ k p, H k p → k ≠ 0 →
      off + size ≤ p ∨ p + s.blocksize ≤ off := by
    intro off size clear k p site later
    rw [← same]
    exact clear k p (tight k p site later)
  cases c with
  | grow newSize =>
      obtain ⟨keeps, clear⟩ := spares
      rw [same] at keeps clear
      have sites : v.g.map.mappedEnd s.blocksize < newSize → v.g.dev.size < newSize → ∀ k p, H k p →
          k ≠ 0 →
          p + s.blocksize ≤ newSize := by
        intro past larger k p site later
        rw [← same]
        exact keeps past larger k p (tight k p site later)
      have lower : Live s top v.base (ResizeCall.floor v (.grow newSize)) n H N v.g := by
        rw [ResizeCall.floor, same]
        split
        · rename_i both
          have sure := live.sane.heads
          rw [log, writes_durable] at sure
          have inside := Nat.le_trans live.map.mappedEnd_top (Nat.le_of_lt both.1)
          refine live.lower log (Nat.le_min.mpr ⟨sure.long, inside⟩) fun k p site later => ?_
          exact Nat.le_min.mpr ⟨(sure.sites k p site later).2.1, sites both.1 both.2 k p site later⟩
        · exact live
      rw [ResizeCall.run, wp_bind]
      refine wp_mono (grow_spec ground lower typed (fun addable => ?_) sites) ?_ fun _ _ stops =>
          stops
      · have region := misses _ _ (clear addable)
        rw [Volume.newAgBytes, same] at region
        exact region
      · rintro _ g' ⟨N', live'⟩
        exact ⟨N', _, N', live'⟩
  | addAg devOffset bytes =>
      rw [ResizeCall.run, wp_bind]
      refine wp_mono (addAg_spec ground live typed.1 fun addable => ?_) ?_ fun _ _ stops => stops
      · have clear := misses _ _ (spares addable)
        rw [Volume.newAgBytes, same] at clear
        exact clear
      · rintro _ g' ⟨N', live'⟩
        exact ⟨N', _, N', live'⟩
  | relocate ag dest =>
      refine wp_mono (relocate_spec ground live fun e movable => ?_) ?_ fun _ _ stops => stops
      · have clear := misses _ _ (spares e movable)
        rw [same] at clear
        exact clear
      · rintro _ g' ⟨live', -⟩
        exact ⟨N, _, N, live'⟩
  | retire ag =>
      refine wp_mono (retire_spec ground live ag) ?_ fun _ _ stops => stops
      rintro _ g' ⟨live', -⟩
      exact ⟨N, _, N, live'⟩
  | shrink newSize =>
      obtain ⟨keeps, clear⟩ := spares
      refine wp_mono (shrink_spec ground live typed ?_ ?_) ?_ fun _ _ stops => stops
      · intro ag e dest e' first evicts movable
        have region := misses _ _ (clear ag e dest e' first evicts movable)
        rw [same] at region
        exact region
      · intro none k p site later
        have short := keeps none k p (tight k p site later)
        rw [same] at short
        exact short
      · rintro _ g' ⟨n', H', live'⟩
        exact ⟨n', H', N, live'⟩

theorem Rest.of_opened (dev : Device) {g : Gofs} (ground : Grounded s top)
    (sane : Sane s top n H dev.bytes dev.fileLen)
    (places : ∀ sb b, Gofs.findSuperblock dev = .ok (sb, b) →
      ∃ off, SbPlace s top off ∧ sbAt dev.bytes off = .ok sb)
    (size : dev.size < 2 ^ 64) (fresh : dev.log = []) (opened : Gofs.openRw dev = .ok g) :
    (Volume.opened dev g).Rest s top := by
  have found := openRw_opened ground sane places opened
  obtain ⟨ws, writes, log, bytes⟩ := found.writes
  rw [fresh, List.nil_append] at log
  have mild : ∀ w ∈ ws, Mild s top n H w ∧ ¬ MapPlace s w.off := by
    intro w member
    obtain ⟨place, whole, sb, bytes, same⟩ := writes w member
    refine ⟨.superblock place whole bytes same, fun mapPlace => ?_⟩
    have header := ground.header
    have positive := ground.positive
    have copies := ground.copies
    have journal := ground.journal
    rcases place with place | place <;> rcases mapPlace with mapPlace | mapPlace <;> omega
  have kept : ∀ i, Fixed s H i → g.dev.bytes i = dev.bytes i := by
    intro i fixed
    rw [bytes]
    apply Write.applyAll_of_not_covers
    rintro ⟨w, member, range⟩
    exact (mild w member).1.fixed ground sane.heads fixed range
  refine Rest.intro (.opened dev g) log sane found.one mild
    (sane.heads.congr ground kept (Nat.le_of_eq found.fileLen.symm)) found.map found.sb ?_
  show g.dev.size < _
  rw [found.size]
  exact size

theorem rest_of_step (ground : Grounded s top) {v' : Volume} (rest : v.Rest s top)
    (step : Step v v') :
    v'.Rest s top := by
  obtain ⟨n, H, N, ws, log, live, tight⟩ := rest
  cases step with
  | @returned c r g typed spares run alive =>
      have spec := call_spec ground log live tight typed spares
      obtain ⟨n', H', N', live'⟩ : ∃ n H N, Live s top v.base (c.floor v) n H N g := by
        rcases r with e | done
        · have stops := wp_error spec run
          rcases e with m | m
          · exact stops.2 m rfl
          · exact absurd rfl (alive m)
        · exact wp_ok spec run
      have heads := live'.heads
      refine Rest.intro (v.after c g) rfl (live'.sane.clip ground heads) ?_
        live'.pend heads live'.map live'.sb live'.size
      obtain ⟨off, place, sb, parsed⟩ := live'.one
      have block := ground.block
      have copies := ground.copies
      have journal := ground.journal
      have last := ground.last
      have long := heads.long
      refine ⟨off, place, sb, ?_⟩
      rw [← parsed]
      exact sbAt_congr fun i hi => clip_of_lt _ (by rcases place with place | place <;> omega)
  | @cut c l d size g typed spares before during state crc longer small whole opened =>
      have spec := call_spec ground log live tight typed spares
      have trail : Trail s top v.base (c.floor v) (c.run v.g).2.dev.log := by
        rcases run : c.run v.g with ⟨e | done, g'⟩
        · exact (wp_error spec run).1
        · obtain ⟨_, _, _, live'⟩ := wp_ok spec run
          exact live'.trail
      have top' := live.map.volume_top
      rw [top'] at crc whole
      have crc' := live.sb.crcHolds crc
      obtain ⟨n', H', sane, mild⟩ := (trail l during).resolve_right fun swaps =>
          whole (live.sb.swaps swaps)
      have crashed := sane.crash ground mild state crc' longer
      have clipped : Sane s top n' H' (clip size d) size := by
        have both := crashed.clip ground crashed.heads
        rwa [Nat.min_self] at both
      have probes : ∀ p ∈ Gofs.probeSizes, p + AGHDR_SIZE ≤ size → p ≠ s.blocksize →
          ∀ hdr, hdrAt (clip size d) p ≠ .ok hdr := by
        intro p member inside other hdr
        rw [hdrAt_congr fun i hi => clip_of_lt d (show p + i < size by omega)]
        exact crc'.probes p member other hdr
      exact Rest.of_opened ⟨clip size d, size, size, []⟩ ground clipped
        (fun sb b => findSuperblock_place clipped.heads.zero probes) small rfl opened

theorem rest_of_steps (ground : Grounded s top) {v' : Volume} (rest : v.Rest s top)
    (run : Relation.ReflTransGen Step v v') : v'.Rest s top := by
  induction run with
  | refl => exact rest
  | tail _ step ih => exact rest_of_step ground ih step

/-- The headers in memory are those of the map in memory. -/
theorem Live.numbered {base : Bytes} {len : Nat} {g : Gofs} (ground : Grounded s top)
    (live : Live s top base len n H N g) : g.Numbered := by
  have block : AGHDR_SIZE ≤ s.blocksize := Nat.le_trans (by decide) ground.block
  obtain ⟨size, laid⟩ := live.map.laid
  have positive := ground.positive
  have last := ground.last
  have journal := ground.journal
  have long := live.heads.long
  have readBlock : ∀ i e, g.map.entries[i]? = some e → e.present →
      ∃ buf hdr, Gofs.readBlock (blkAddr i (agHeaderBlock i)) g = (.ok buf, g) ∧
      AgHeader.parse buf = .ok hdr ∧
        hdr.agNum = i := by
    intro i e entry present
    obtain ⟨off, only, -, site⟩ := live.map.place entry present
    have some_block := live.map.some_block e (List.mem_of_getElem? entry) present
    obtain ⟨p, inside, found, hdr, parsed, number⟩ : ∃ p, p + s.blocksize ≤ g.dev.fileLen ∧
        g.map.resolve (blkAddr i (agHeaderBlock i)) g.sb.blocksize = some p ∧
        ∃ hdr, hdrAt g.dev.bytes p = .ok hdr ∧ hdr.agNum = i := by
      rw [live.sb.blocksize]
      by_cases first : i = 0
      · subst first
        rw [live.map.zero] at entry
        cases entry
        have two : 1 < top := by
          by_contra small
          have rows : (top - 1) * s.blocksize = 0 := by
            rw [show top - 1 = 0 by omega, Nat.zero_mul]
          omega
        obtain ⟨off', only', -, -, found⟩ := laid.resolve_entry live.map.zero
          (decide_eq_true (by decide : (AGF_PRESENT ||| AGF_IMMOVABLE) &&& AGF_PRESENT ≠ 0)) two
        cases only'
        obtain ⟨hdr, parsed, number, -⟩ := live.heads.zero
        refine ⟨s.blocksize, ?_, ?_, hdr, parsed, number⟩
        · have rows : 2 * s.blocksize ≤ top * s.blocksize := Nat.mul_le_mul_right _ two
          omega
        · rw [Nat.zero_add, Nat.one_mul] at found
          exact found
      · obtain ⟨off', only', -, -, found⟩ := laid.resolve_entry entry present some_block
        rw [only] at only'
        cases only'
        obtain ⟨-, inside, hdr, parsed, number⟩ := live.heads.sites i off site first
        refine ⟨off, inside, ?_, hdr, parsed, number⟩
        rw [Nat.zero_mul, Nat.add_zero] at found
        rw [agHeaderBlock, if_neg first]
        exact found
    refine ⟨clip s.blocksize (drop p g.dev.bytes), hdr, ?_, ?_, number⟩
    · have read := Device.pread_ok inside
      rw [live.sb.blocksize] at found
      simp only [Gofs.readBlock, Gofs.resolve, bind_run, get_run, live.sb.blocksize, found,
          pure_run, Gofs.pread, read]
      rfl
    · rw [← AgHeader.parse_clip, clip_clip_of_le block]
      exact parsed
  refine ⟨?_, ?_, ?_⟩
  · rw [live.map.count, live.sb.nextAg]
  · intro i e entry present
    obtain ⟨buf, hdr, read, parsed, number⟩ := readBlock i e entry present
    refine ⟨hdr, ?_, number⟩
    rw [agHeaderBlock] at read
    simp only [Gofs.readAgHeader, bind_run, read, parsed, pure_run]
  · intro i e n blk w w' entry present fs clean run
    obtain ⟨buf, hdr, read, parsed, number⟩ := readBlock i e entry present
    refine wp_ok (Q := fun blk _ => blk / 2 ^ 32 = i) (E := Work.Fails) (Work.allocExtent_in ?_) run
    intro hdr' w₁ header
    have found : Work.txnRead (blkAddr i (agHeaderBlock i)) w = (.ok buf, w) := by
      simp only [Work.txnRead, bind_run, get_run, clean, Work.onFs, zoom, fs, read]
      subst fs
      rfl
    simp only [Work.readAgHeaderTxn, bind_run, found, parsed, pure_run] at header
    cases header
    exact number

end Numbering

namespace Mkfs

variable {d : Device} {map : AgMap}

theorem Headed.parsed {bs ag off len : Nat} (headed : Headed bs d ag off len)
    (block : AGHDR_SIZE ≤ bs)
    (number : ag < 2 ^ 32) (length : len < 2 ^ 32) : ∃ hdr,
    hdrAt d.bytes (off + hdrBlock ag * bs) = .ok hdr ∧
      hdr.agNum = ag ∧ hdr.length = len := by
  obtain ⟨hdr, number', length', held⟩ := headed
  have same : clip AGHDR_SIZE (drop (off + hdrBlock ag * bs) d.bytes) = clip AGHDR_SIZE
      hdr.toBytes := by
    apply clip_congr
    intro i hi
    rw [← clip_of_lt hdr.toBytes hi]
    exact held.same i (Nat.lt_of_lt_of_le hi block)
  rw [hdrAt, same, AgHeader.parse_clip]
  refine ⟨_, AgHeader.parse_cut hdr, ?_, ?_⟩
  · exact (congrArg (· % 2 ^ 32) number').trans (Nat.mod_eq_of_lt number)
  · exact (congrArg (· % 2 ^ 32) length').trans (Nat.mod_eq_of_lt length)

theorem Image.grounded (image : Image d s map) (labels : Labels d s map top) : Grounded s top :=
  ⟨image.rooted.block, labels.header, labels.capacity, image.small, image.rooted.copies,
  image.behind labels⟩

theorem Image.good (image : Image d s map) (labels : Labels d s map top) :
    Good s top (Lists map) s.nextAg map :=
  ⟨labels.fits, image.count, labels.first, ⟨_, image.laid⟩,
      fun e member _ => labels.positive e member,
    fun _ _ lists => lists⟩

theorem Image.sane (image : Image d s map) (labels : Labels d s map top)
    (journal : s.journalLength < 2 ^ 32) :
    Sane s top s.nextAg (Lists map) d.bytes d.fileLen := by
  have ground := image.grounded labels
  have block : AGHDR_SIZE ≤ s.blocksize := Nat.le_trans (by decide) ground.block
  obtain ⟨rest, entries⟩ := labels.first
  have zero : map.entries[0]? = some ⟨AGF_PRESENT ||| AGF_IMMOVABLE, top, [⟨0, top, 0⟩]⟩ := by
    rw [entries]
    rfl
  have present : (⟨AGF_PRESENT ||| AGF_IMMOVABLE, top, [⟨0, top, 0⟩]⟩ : AgEntry).present := by
    exact decide_eq_true (by decide : (AGF_PRESENT ||| AGF_IMMOVABLE) &&& AGF_PRESENT ≠ 0)
  refine ⟨?_, ?_, ⟨?_, ?_, ?_⟩, ?_⟩
  · intro off place m parsed
    obtain ⟨b, bytes, copy0, copy1⟩ := labels.copies.map
    have whole : mapAt s.agmapLength d.bytes off = .ok map := by
      refine mapAt_whole labels.fits image.small labels.capacity bytes ?_
      rcases place with rfl | rfl
      · exact copy0.same
      · exact copy1.same
    rw [whole] at parsed
    cases parsed
    exact image.good labels
  · intro off place sb parsed
    have whole : sbAt d.bytes off = .ok s := by
      refine sbAt_whole image.fits ?_
      rcases place with rfl | rfl
      · exact labels.copies.primary.same
      · exact labels.copies.backup.same
    rw [whole] at parsed
    cases parsed
    exact ⟨image.fits, rfl, rfl, rfl, rfl, rfl, rfl, image.start⟩
  · have inside := image.laid.valid.inside _ (List.mem_of_getElem? zero) present
        _ List.mem_cons_self
    rwa [AgSegment.devEnd, Nat.zero_add] at inside
  · obtain ⟨hdr, parsed, number, length⟩ := (labels.headed journal 0 _ 0 zero rfl).parsed block
        (Nat.two_pow_pos 32)
      (labels.fits.entries _ (List.mem_of_getElem? zero)).length
    rw [hdrBlock, if_pos rfl, Nat.zero_add, Nat.one_mul] at parsed
    exact ⟨hdr, parsed, number, length⟩
  · rintro k off ⟨e, entry, there, only⟩ later
    have member := List.mem_of_getElem? entry
    have inside := image.laid.valid.inside e member there _ (by rw [only]; exact List.mem_cons_self)
    have rows : s.blocksize ≤ e.length * s.blocksize :=
        Nat.le_mul_of_pos_left _ (labels.positive e member)
    have few := (List.getElem?_eq_some_iff.mp entry).1
    have count := labels.fits.count
    obtain ⟨hdr, parsed, number, -⟩ := (labels.headed journal k e off entry only).parsed block
        (by omega)
      (labels.fits.entries e member).length
    rw [hdrBlock, if_neg later, Nat.zero_mul, Nat.add_zero] at parsed
    refine ⟨labels.behind k e off entry only later, ?_, hdr, parsed, number⟩
    rw [AgSegment.devEnd] at inside
    dsimp only at inside
    omega
  · intro some_blocks i hi
    exact (image.empty some_blocks).same i hi

theorem Image.rest (image : Image d s map) (labels : Labels d s map top)
    (journal : s.journalLength < 2 ^ 32)
    (small : d.fileLen < 2 ^ 64) {g : Gofs} (opened : Gofs.openRw d.reopen = .ok g) :
    (Volume.opened d.reopen g).Rest s top := by
  have ground := image.grounded labels
  have sane := image.sane labels journal
  have places : ∀ sb b, Gofs.findSuperblock d.reopen = .ok (sb, b) → ∃ off, SbPlace s top off ∧
      sbAt d.reopen.bytes off = .ok sb := by
    intro sb b found
    rw [image.stored.found] at found
    cases found
    exact ⟨0, .inl rfl, sbAt_whole image.fits labels.copies.primary.same⟩
  exact Rest.of_opened d.reopen ground sane places small rfl opened

end Mkfs

end FiveFs
