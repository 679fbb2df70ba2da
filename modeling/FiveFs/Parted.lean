import FiveFs.Outage

/-! A power cut between the AG map copies and the superblock copies that `add_ag` writes: the next
open finds an AG that the superblock does not count. -/

namespace FiveFs

open Buffer Prog

section

variable [Crc32c]

/-- The map that `add_ag` stores. -/
def AgMap.grown (m : AgMap) (bs devOffset bytes : Nat) : AgMap :=
  ⟨m.gen + 1, m.entries ++ [⟨AGF_PRESENT, bytes / bs % 2 ^ 32,
  [⟨0, bytes / bs % 2 ^ 32, devOffset⟩]⟩]⟩

/-- What `add_ag` has written when the copies of the grown map are out and those of the superblock
are not: header and root table `region` of the new AG, a sync, the map copies. -/
def Parted (g : Gofs) (devOffset bytes : Nat) (log : List Event) : Prop :=
  ∃ hdr table n b, (g.map.grown g.sb.blocksize devOffset bytes).toBytes g.sb.agmapLength = .ok b ∧
    g.dev.log ++ [.write ⟨devOffset, g.sb.blocksize, hdr⟩,
    .write ⟨devOffset + 1 * g.sb.blocksize, n, table⟩, .sync,
      .write ⟨g.sb.agmapOffset, g.sb.agmapLength, b⟩,
      .write ⟨g.sb.agmapOffset + g.sb.agmapLength, g.sb.agmapLength, b⟩] <+: log

namespace Gofs

omit [Crc32c] in
theorem subtract_same (a b : Nat) (g : Gofs) :
    wp (subtract a b) (fun _ g' => g' = g) (fun _ _ => True) g := by
  rw [subtract, wp_ite]
  split
  · rfl
  · trivial

omit [Crc32c] in
theorem increase_same (width a b : Nat) (g : Gofs) :
    wp (increase width a b) (fun r g' => r = a + b ∧ g' = g) (fun _ _ => True) g := by
  rw [increase, wp_ite]
  split
  · exact ⟨rfl, rfl⟩
  · trivial

theorem writeSuperblock_log (g : Gofs) :
    wp writeSuperblock (fun _ g' => g.dev.log <+: g'.dev.log) (fun _ _ => True) g := by
  rw [writeSuperblock, wp_bind, wp_get]
  dsimp only
  rw [wp_ite]
  split
  · trivial
  · rw [wp_bind, wp_modify, wp_bind, wp_get]
    dsimp only
    rw [wp_bind, pwrite, wp_modify]
    split
    · exact List.prefix_append _ _
    · rw [pwrite, wp_modify]
      exact (List.prefix_append _ _).trans (List.prefix_append _ _)

theorem addAg_parted (devOffset bytes : Nat) (g : Gofs) :
    wp (addAg devOffset bytes) (fun _ g' => Parted g devOffset bytes g'.dev.log) (fun _ _ => True)
    g := by
  rw [addAg, wp_bind, wp_get]
  dsimp only
  rw [wp_ite]
  split
  · trivial
  · rename_i aligned
    rw [wp_ite]
    split
    · trivial
    · rename_i enough
      rw [wp_ite]
      split
      · trivial
      · rename_i free
        rw [wp_bind]
        refine wp_mono (subtract_same _ _ _) ?_ fun _ _ _ => trivial
        rintro cells _ rfl
        rw [wp_bind]
        refine wp_mono (subtract_same _ _ _) ?_ fun _ _ _ => trivial
        rintro rsvd _ rfl
        rename_i g
        rw [wp_bind, pwrite, wp_modify, wp_bind, pwrite, wp_modify, wp_bind, sync, wp_modify,
            wp_bind]
        refine wp_mono (subtract_same _ _ _) ?_ fun _ _ _ => trivial
        rintro more _ rfl
        rw [wp_bind]
        refine wp_mono (increase_same _ _ _ _) ?_ fun _ _ _ => trivial
        rintro nextAg _ ⟨-, rfl⟩
        rw [wp_bind]
        refine wp_mono (increase_same _ _ _ _) ?_ fun _ _ _ => trivial
        rintro free _ ⟨-, rfl⟩
        rw [wp_bind]
        refine wp_mono (increase_same _ _ _ _) ?_ fun _ _ _ => trivial
        rintro reserved _ ⟨-, rfl⟩
        rw [wp_bind, wp_modify, wp_bind, persistMap, wp_bind, writeAgmap, wp_bind, wp_get]
        rw [wp_bind]
        refine wp_mono (increase_same _ _ _ _) ?_ fun _ _ _ => trivial
        rintro gen _ ⟨rfl, rfl⟩
        rw [wp_bind, wp_modify, wp_bind, wp_get]
        dsimp only
        rw [wp_bind, wp_ofResult]
        split
        · rename_i b stored
          rw [wp_bind, pwrite, wp_modify, pwrite, wp_modify, wp_bind]
          refine wp_mono (writeSuperblock_log _) ?_ fun _ _ _ => trivial
          intro _ g₁ before
          rw [sync, wp_modify, wp_pure]
          have longer := before.trans (List.prefix_append _ [Event.sync])
          simp only [Device.pwrite, Device.sync, List.append_assoc, List.cons_append,
              List.nil_append] at longer
          exact ⟨_, _, _, b, stored, longer⟩
        · trivial

theorem grow_parted (newSize : Nat) (g : Gofs) :
    wp (grow newSize) (fun _ g' => Parted g (g.map.mappedEnd g.sb.blocksize)
      (newSize - g.map.mappedEnd g.sb.blocksize) g'.dev.log) (fun _ _ => True) g := by
  rw [grow, wp_bind, wp_get]
  dsimp only
  rw [wp_ite]
  split
  · trivial
  · rw [wp_ite]
    split
    · rw [wp_bind, setLen, wp_modify]
      exact addAg_parted _ _ _
    · exact addAg_parted _ _ g

theorem grow_log {newSize n : Nat} {g g' : Gofs} (run : grow newSize g = (.ok n, g')) :
    Parted g (g.map.mappedEnd g.sb.blocksize) (newSize - g.map.mappedEnd g.sb.blocksize)
    g'.dev.log := by
  have parted := wp_ok (grow_parted newSize g) run
  exact parted

end Gofs

end

theorem AgHeader.parse_places [Crc32c] {b : Bytes} {hdr : AgHeader}
    (ok : AgHeader.parse b = .ok hdr) :
    hdr.length = getU32 b 20 ∧ hdr.allocRoot = getU32 b 36 ∧ hdr.tblArena = getU32 b 48 := by
  rw [AgHeader.parse] at ok
  split at ok
  · cases ok
  · split at ok
    · cases ok
    · cases ok
      exact ⟨rfl, rfl, rfl⟩

/-- The small image. -/
def smallImage : Device := (@Mkfs.mkfs castagnoli smallOpts 0 ⟨0, 0⟩ emptyFile).2

def imageSuperblock : Superblock := {
  blocksize := 8192
  inodesize := 512
  rootIno := 8192
  nextAg := 1
  agmapOffset := 24576
  agmapLength := 65536
  journalStart := 19
  journalLength := 8
  freeBlocks := 255
  rsvdBlocks := 768
  fullBlocks := 1
  gen := 1
  journalSeq := 1 }

def imageMap : AgMap := ⟨1, [⟨AGF_PRESENT ||| AGF_IMMOVABLE, 1024, [⟨0, 1024, 0⟩]⟩]⟩

theorem smallImage_made : ∃ summary, @Mkfs.mkfs castagnoli smallOpts 0 ⟨0, 0⟩
    emptyFile = (.ok summary, smallImage) := by
  obtain ⟨summary, d, made⟩ := small_made
  have same : smallImage = d := congrArg Prod.snd made
  exact ⟨summary, same ▸ made⟩

theorem smallImage_read : Superblock.read smallImage.bytes = imageSuperblock ∧
    getU32 (clip AGHDR_SIZE (drop 8192 smallImage.bytes)) 20 = 1024 := by
  decide +kernel

theorem smallImage_length : smallImage.fileLen < 2 ^ 64 := by decide +kernel

theorem smallImage_labels : @Mkfs.Image castagnoli smallImage imageSuperblock imageMap ∧
    @Mkfs.Labels castagnoli smallImage imageSuperblock imageMap 1024 := by
  let crc := castagnoli
  obtain ⟨summary, made⟩ := smallImage_made
  obtain ⟨sb, map, top, image, labels⟩ := Mkfs.mkfs_labels smallOpts_typed made
  obtain ⟨fields, length⟩ := smallImage_read
  have super : sb = imageSuperblock := by
    rw [← fields]
    apply Superblock.parse_read
    rw [← Superblock.parse_toBytes image.fits]
    apply Superblock.parse_congr
    intro i hi
    rw [← labels.copies.primary.same i hi, Nat.zero_add]
  subst super
  obtain ⟨rest, entries⟩ := labels.first
  have top_eq : top = 1024 := by
    have entry : map.entries[0]? = some ⟨AGF_PRESENT ||| AGF_IMMOVABLE, top, [⟨0, top, 0⟩]⟩ := by
      rw [entries]
      rfl
    have small := (labels.fits.entries _ (List.mem_of_getElem? entry)).length
    obtain ⟨hdr, parsed, -, whole⟩ := (labels.headed (by decide) 0 _ 0 entry rfl).parsed (by decide)
        (by decide) small
    have same : hdr.length = top := whole
    rw [← same, ← length]
    exact (AgHeader.parse_places parsed).1
  subst top_eq
  have alone : map = imageMap := by
    have count := image.count
    rw [entries] at count
    have none : rest = [] := by
      simpa [imageSuperblock] using count
    obtain ⟨gen, es⟩ := map
    rw [none] at entries
    have gen_eq := labels.gen
    cases gen_eq
    cases entries
    rfl
  subst alone
  exact ⟨image, labels⟩

def imageMount : Gofs := { dev := smallImage.reopen, sb := imageSuperblock, map := imageMap }

theorem imageMount_grows : ∃ n g, @Gofs.grow castagnoli (16 <<< 20) imageMount = (.ok n, g) ∧
    g.map.entries.length = 2 := by
  have done : ((@Gofs.grow castagnoli (16 <<< 20) imageMount).1.isOk &&
      (@Gofs.grow castagnoli (16 <<< 20) imageMount).2.map.entries.length == 2) = true := by
    decide +kernel
  rw [Bool.and_eq_true, beq_iff_eq] at done
  rcases run : @Gofs.grow castagnoli (16 <<< 20) imageMount with ⟨e | n, g⟩
  · rw [run] at done
    cases done.1
  · rw [run] at done
    exact ⟨n, g, rfl, done.2⟩

/-- The small image, grown to twice its size and shrunk to that size. -/
theorem agmap_invariant_small : ∃ n g g', @Gofs.grow castagnoli (16 <<< 20)
    imageMount = (.ok n, g) ∧
    g.map.entries.length = 2 ∧ @Gofs.shrink castagnoli g.dev.size g = (.ok (), g') ∧
    g'.map.Valid g'.sb.blocksize g'.dev.size := by
  let crc := castagnoli
  obtain ⟨summary, made⟩ := smallImage_made
  obtain ⟨image, labels⟩ := smallImage_labels
  obtain ⟨n, g, run, two⟩ := imageMount_grows
  have opened := image.mounts labels
  have grown := Resized.grow run
  have same := Gofs.shrink_whole (mapped_of_resized (image.mapped opened) (.single grown))
  exact ⟨n, g, _, run, two, same,
    (agmap_invariant smallOpts_typed made opened (.tail (.single grown) (.shrink same))).1⟩

/-- From mkfs on, whatever calls return and whatever power cuts leave: as long as every step spares
the headers in use and parts no AG map from its superblock, the AGs are numbered by their places in
the map. -/
theorem ag_numbering [Crc32c] {v : Volume} {opts : MkfsOpts} {uuid : Nat} {now : Ts} {d d' : Device}
    {summary : MkfsSummary} {g₀ : Gofs}
    (typed : opts.Typed d uuid) (made : Mkfs.mkfs opts uuid now d = (.ok summary, d'))
    (file : d'.fileLen < 2 ^ 64)
    (opened : Gofs.openRw d'.reopen = .ok g₀) (journal : g₀.sb.journalLength < 2 ^ 32)
    (run : Relation.ReflTransGen Step (Volume.opened d'.reopen g₀) v) : v.g.Numbered := by
  obtain ⟨sb, map, top, image, labels⟩ := Mkfs.mkfs_labels typed made
  have ground := image.grounded labels
  have same := opened.symm.trans (image.mounts labels)
  cases same
  obtain ⟨n, H, N, ws, -, live, -⟩ := Numbering.rest_of_steps ground
      (image.rest labels journal file opened) run
  exact live.numbered ground

section

variable [Crc32c]

theorem imageMount_on (image : Mkfs.Image smallImage imageSuperblock imageMap)
    (labels : Mkfs.Labels smallImage imageSuperblock imageMap 1024) (k p : Nat) :
    ¬ (Volume.opened smallImage.reopen imageMount).On k p := by
  have none : k ≠ 0 → ¬ Numbering.Lists imageMap k p := by
    rintro later ⟨e, entry, -, -⟩
    have few : k < 1 := (List.getElem?_eq_some_iff.mp entry).1
    omega
  rintro ⟨later, listed | ⟨off, place, m, parsed, lists⟩⟩
  · exact none later listed
  · have good := (image.sane labels (by decide)).maps off place m parsed
    exact none later (good.listed k p lists)

theorem imageMount_spares (image : Mkfs.Image smallImage imageSuperblock imageMap)
    (labels : Mkfs.Labels smallImage imageSuperblock imageMap 1024) (newSize : Nat) :
    (ResizeCall.grow newSize).Spares (Volume.opened smallImage.reopen imageMount) :=
  ⟨fun _ _ k p on => absurd on (imageMount_on image labels k p),
    fun _ k p on => absurd on (imageMount_on image labels k p)⟩

end

/-- The small image, opened and grown to 16 MiB. -/
theorem ag_numbering_small : ∃ g, @ResizeCall.run castagnoli (.grow (16 <<< 20))
    imageMount = (.ok (), g) ∧
    @Gofs.Numbered castagnoli
      ((Volume.opened smallImage.reopen imageMount).after (.grow (16 <<< 20)) g).g := by
  obtain ⟨summary, made⟩ := smallImage_made
  obtain ⟨image, labels⟩ := smallImage_labels
  obtain ⟨n, g, run, _⟩ := imageMount_grows
  have ran : @ResizeCall.run castagnoli (.grow (16 <<< 20)) imageMount = (.ok (), g) := by
    simp only [ResizeCall.run, bind_run, run, pure_run]
  have step := @Step.returned castagnoli (Volume.opened smallImage.reopen imageMount)
      (.grow (16 <<< 20)) (.ok ()) g
    (by decide : 16 <<< 20 < 2 ^ 64) (@imageMount_spares castagnoli image labels _) ran
    (fun m panic => by cases panic)
  exact ⟨g, ran, @ag_numbering castagnoli _ _ _ _ _ _ _ _ smallOpts_typed made smallImage_length
    (@Mkfs.Image.mounts castagnoli _ _ _ _ image labels) (by decide) (.single step)⟩

def grownMap : AgMap := imageMap.grown 8192 (8 <<< 20) (8 <<< 20)

theorem grownMap_fits : grownMap.Fits := by
  refine ⟨by decide, by decide, fun e member => ?_⟩
  rcases List.mem_cons.mp member with rfl | member
  · refine ⟨by decide, by decide, by decide, fun s hs => ?_⟩
    cases List.mem_singleton.mp hs
    exact ⟨by decide, by decide, by decide⟩
  · cases List.mem_singleton.mp member
    refine ⟨by decide, by decide, by decide, fun s hs => ?_⟩
    cases List.mem_singleton.mp hs
    exact ⟨by decide, by decide, by decide⟩

theorem grownMap_laid : grownMap.Laid 8192 (16 <<< 20) := by
  refine ⟨fun e member => ?_, ?_⟩
  · rcases List.mem_cons.mp member with rfl | member
    · exact .inl ⟨.inr rfl, by decide, 0, rfl, by decide, by decide⟩
    · cases List.mem_singleton.mp member
      exact .inl ⟨.inl rfl, by decide, 8 <<< 20, rfl, by decide, by decide⟩
  · refine List.pairwise_pair.mpr ?_
    intro s hs t ht
    cases List.mem_singleton.mp hs
    cases List.mem_singleton.mp ht
    exact .inl (by decide)

/-- A cut after the map copies and before the superblock copies of a growth to 16 MiB: the open
takes the map of two AGs and the superblock that counts one. -/
theorem imageMount_parts [Crc32c] (image : Mkfs.Image smallImage imageSuperblock imageMap)
    (labels : Mkfs.Labels smallImage imageSuperblock imageMap 1024) {n : Nat} {g : Gofs}
    (run : Gofs.grow (16 <<< 20) imageMount = (.ok n, g)) : ∃ log d g',
      log <+: (ResizeCall.run (.grow (16 <<< 20)) imageMount).2.dev.log ∧
      Crash.State smallImage.bytes log d ∧
      Gofs.openRw ⟨clip (16 <<< 20) d, 16 <<< 20, 16 <<< 20, []⟩ = .ok g' ∧ ¬ g'.Numbered := by
  obtain ⟨hdr, table, len, b, bytes, before⟩ := Gofs.grow_log run
  have past : imageMount.map.mappedEnd imageMount.sb.blocksize = 8 <<< 20 := by decide
  rw [past] at bytes before
  have ran : (ResizeCall.run (.grow (16 <<< 20)) imageMount).2 = g := by
    simp only [ResizeCall.run, bind_run, run, pure_run]
  set ws : List Write := [⟨24576, 65536, b⟩, ⟨24576 + 65536, 65536, b⟩] with ws_def
  set d : Bytes := Write.applyAll ws (Write.applyAll
      [⟨8 <<< 20, 8192, hdr⟩, ⟨(8 <<< 20) + 1 * 8192, len, table⟩]
    smallImage.bytes) with d_def
  have kept : ∀ {off m : Nat} {c : Bytes}, smallImage.Holds off m c → off + m ≤ 24576 ∨
      155648 ≤ off →
      off + m ≤ 8 <<< 20 → Device.Holds ⟨clip (16 <<< 20) d, 16 <<< 20, 16 <<< 20, []⟩ off m c := by
    intro off m c held apart below
    refine ⟨Nat.le_trans below (by decide : 8 <<< 20 ≤ 16 <<< 20), fun i hi => ?_⟩
    show clip (16 <<< 20) d (off + i) = c i
    rw [clip_of_lt d (by omega), ← held.same i hi, d_def, ws_def]
    simp only [Write.applyAll_cons, Write.applyAll_nil, Write.apply]
    rw [copyAt_of_not_mem (by omega), copyAt_of_not_mem (by omega), copyAt_of_not_mem (by omega),
      copyAt_of_not_mem (by omega)]
  have written : [] ++ [.write ⟨8 <<< 20, 8192, hdr⟩, .write ⟨(8 <<< 20) + 1 * 8192, len, table⟩,
      .sync,
      .write ⟨24576, 65536, b⟩, .write ⟨24576 + 65536, 65536, b⟩] <+:
        (ResizeCall.run (.grow (16 <<< 20)) imageMount).2.dev.log := by
    rw [ran]
    exact before
  have cut : Crash.State smallImage.bytes ([] ++ [.write ⟨8 <<< 20, 8192, hdr⟩,
      .write ⟨(8 <<< 20) + 1 * 8192, len, table⟩, .sync, .write ⟨24576, 65536, b⟩,
      .write ⟨24576 + 65536, 65536, b⟩]) d :=
    ⟨ws, ws, List.Sublist.refl _, .inl rfl, d_def⟩
  have opened : Gofs.openRw ⟨clip (16 <<< 20) d, 16 <<< 20, 16 <<< 20, []⟩ =
      .ok ⟨⟨clip (16 <<< 20) d, 16 <<< 20, 16 <<< 20, []⟩, imageSuperblock, grownMap,
      fun _ => none⟩ := by
    refine image.opens_map labels grownMap_fits ⟨_, rfl⟩ grownMap_laid bytes ?_ ?_
      (kept labels.copies.primary (.inl (by decide)) (by decide))
      (kept labels.copies.backup (.inr (by decide)) (by decide))
      fun some_blocks => kept (image.empty some_blocks) (.inr (by decide)) (by decide)
    · refine ⟨(by decide : 24576 + 65536 ≤ 16 <<< 20), fun i hi => ?_⟩
      have inside : i < 65536 := hi
      show clip (16 <<< 20) d (24576 + i) = b i
      rw [clip_of_lt d (by omega), d_def, ws_def]
      simp only [Write.applyAll_cons, Write.applyAll_nil, Write.apply]
      rw [copyAt_of_not_mem (by omega), copyAt_of_mem (by omega), Nat.add_sub_cancel_left]
    · refine ⟨(by decide : 24576 + 65536 + 65536 ≤ 16 <<< 20), fun i hi => ?_⟩
      have inside : i < 65536 := hi
      show clip (16 <<< 20) d (24576 + 65536 + i) = b i
      rw [clip_of_lt d (by omega), d_def, ws_def]
      simp only [Write.applyAll_cons, Write.applyAll_nil, Write.apply]
      rw [copyAt_of_mem (by omega), Nat.add_sub_cancel_left]
  refine ⟨_, d, _, written, cut, opened, fun numbered => ?_⟩
  have count : 2 = 1 := numbered.count
  cases count

theorem ag_numbering_parted : ∃ summary d' g₀ log d g,
    @Mkfs.mkfs castagnoli smallOpts 0 ⟨0, 0⟩ emptyFile = (.ok summary, d') ∧
      @Gofs.openRw castagnoli d'.reopen = .ok g₀ ∧
      log <+: (@ResizeCall.run castagnoli (.grow (16 <<< 20)) g₀).2.dev.log ∧
      Crash.State d'.bytes log d ∧
      @Gofs.openRw castagnoli ⟨clip (16 <<< 20) d, 16 <<< 20, 16 <<< 20, []⟩ = .ok g ∧
      ¬ @Gofs.Numbered castagnoli g := by
  obtain ⟨summary, made⟩ := smallImage_made
  obtain ⟨image, labels⟩ := smallImage_labels
  obtain ⟨n, g, run, _⟩ := imageMount_grows
  obtain ⟨log, d, g', written, cut, opened, other⟩ :=
      @imageMount_parts castagnoli image labels n g run
  exact ⟨summary, smallImage, imageMount, log, d, g', made,
      @Mkfs.Image.mounts castagnoli _ _ _ _ image labels,
    written, cut, opened, other⟩

end FiveFs
