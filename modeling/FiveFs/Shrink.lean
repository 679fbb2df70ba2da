import FiveFs.Relocate
import FiveFs.Tree

/-! Tail shrink: the search for a gap, the rounds of the loop, and what they keep. -/

namespace FiveFs

open Buffer Prog

/-- The segment meets the region, as the overlap checks see it. -/
def AgSegment.Meets (s : AgSegment) (bs off len : Nat) : Prop := off < s.devEnd bs ∧
    s.devOffset < off + len

namespace AgMap

variable {m : AgMap} {bs bytes limit x : Nat}

theorem gapFrom_limit {regions : List (Nat × Nat)} {cursor : Nat} (some_bytes : 0 < bytes)
    (found : gapFrom bytes limit regions cursor = some x) : x + bytes ≤ limit := by
  induction regions generalizing cursor with
  | nil =>
      rw [gapFrom] at found
      split at found
      · cases found
        omega
      · cases found
  | cons r rest ih =>
      rw [gapFrom] at found
      split at found
      · cases found
        omega
      · exact ih found

theorem gapFrom_start {regions : List (Nat × Nat)} {cursor : Nat}
    (found : gapFrom bytes limit regions cursor = some x) : x = cursor ∨ ∃ r ∈ regions,
    x = r.2 := by
  induction regions generalizing cursor with
  | nil =>
      rw [gapFrom] at found
      split at found
      · cases found
        exact .inl rfl
      · cases found
  | cons r rest ih =>
      rw [gapFrom] at found
      split at found
      · cases found
        exact .inl rfl
      · rcases ih found with here | ⟨q, member, there⟩
        · rcases max_choice cursor r.2 with first | second
          · exact .inl (here.trans first)
          · exact .inr ⟨r, List.mem_cons_self, here.trans second⟩
        · exact .inr ⟨q, List.mem_cons_of_mem _ member, there⟩

theorem gapFrom_zero {regions : List (Nat × Nat)} {cursor : Nat} :
    gapFrom 0 limit regions cursor ≠ none := by
  induction regions generalizing cursor with
  | nil =>
      rw [gapFrom, if_pos (Nat.zero_le _)]
      exact Option.some_ne_none _
  | cons r rest ih =>
      rw [gapFrom]
      split
      · exact Option.some_ne_none _
      · exact ih

theorem gapFrom_none {regions : List (Nat × Nat)} {cursor : Nat}
    (none' : gapFrom bytes limit regions cursor = none)
    (behind : cursor ≤ x) (low : x + bytes ≤ limit) : ∃ r ∈ regions, x < r.2 ∧ r.1 < x + bytes := by
  have some_bytes : 0 < bytes := by
    by_contra empty
    obtain rfl : bytes = 0 := by omega
    exact gapFrom_zero none'
  induction regions generalizing cursor with
  | nil =>
      rw [gapFrom, if_pos (by omega)] at none'
      cases none'
  | cons r rest ih =>
      by_cases clear : x < r.2 ∧ r.1 < x + bytes
      · exact ⟨r, List.mem_cons_self, clear⟩
      · rw [gapFrom] at none'
        split at none'
        · cases none'
        · rename_i narrow
          obtain ⟨q, member, meets⟩ := ih none' (by omega)
          exact ⟨q, List.mem_cons_of_mem _ member, meets⟩

theorem findGap_aligned (aligned : ∀ s ∈ m.segs, s.devOffset % bs = 0)
    (found : m.findGap bs bytes limit = some x) :
    x % bs = 0 := by
  rcases gapFrom_start found with rfl | ⟨r, member, rfl⟩
  · exact Nat.zero_mod bs
  · obtain ⟨s, hs, rfl⟩ := List.mem_map.mp (List.mem_mergeSort.mp member)
    rw [AgSegment.devEnd, Nat.add_mul_mod_self_right]
    exact aligned s hs

theorem findGap_apart (found : m.findGap bs bytes limit = some x) {s : AgSegment}
    (hs : s ∈ m.segs) :
    ¬ s.Meets bs x bytes := by
  rintro ⟨low, high⟩
  have clear := findGap_clear found s hs
  omega

theorem findGap_complete (none' : m.findGap bs bytes limit = none) (low : x + bytes ≤ limit) :
    ∃ s ∈ m.segs, s.Meets bs x bytes := by
  obtain ⟨r, member, meets⟩ := gapFrom_none none' (Nat.zero_le x) low
  obtain ⟨s, hs, rfl⟩ := List.mem_map.mp (List.mem_mergeSort.mp member)
  exact ⟨s, hs, meets⟩

end AgMap

namespace Gofs

variable [Crc32c] {g g' g'' : Gofs} {ag dest newSize : Nat} {e : AgEntry}

/-- A retired entry. -/
def retiredEntry (e : AgEntry) : AgEntry := { e with flags := AGF_RETIRED, segs := [] }

/-- What `retire` has done when it returns. -/
structure Retired (g g' : Gofs) (ag : Nat) (e : AgEntry) : Prop where
  later : ag ≠ 0
  empty : ∃ hdr, readAgHeader ag g = (.ok hdr, g) ∧ hdr.fullBlocks = 0
  present : e.present
  done : Recorded { g with map := { g.map with entries := g.map.entries.set ag (retiredEntry e) } }
      g'

theorem readAgHeader_run (ag : Nat) (g : Gofs) :
    wp (readAgHeader ag) (fun hdr g' => g' = g ∧ readAgHeader ag g = (.ok hdr, g)) Fails g := by
  have same := readAgHeader_wp ag g
  unfold wp at same ⊢
  split
  · rename_i hdr g' run
    rw [run] at same
    cases same
    exact ⟨rfl, run⟩
  · trivial

theorem retire_done (g : Gofs) (ag : Nat) :
    wp (retire ag) (fun _ g' => ∃ e, g.map.entries[ag]? = some e ∧ g.Retired g' ag e) Fails g := by
  rw [retire, wp_ite]
  split
  · trivial
  · rename_i later
    rw [wp_bind]
    refine wp_mono (readAgHeader_run ag g) ?_ fun _ _ _ => trivial
    rintro hdr _ ⟨rfl, read⟩
    rename_i g
    rw [wp_ite]
    split
    · trivial
    · rename_i empty
      rw [wp_bind, wp_get]
      split
      · trivial
      · rename_i e entry
        rw [wp_ite]
        split
        · trivial
        · rename_i present
          rw [wp_bind, setEntry, wp_modify, wp_bind, wp_get, wp_bind]
          refine wp_mono (subtract_wp _ _ _) ?_ fun _ _ _ => trivial
          rintro free _ ⟨rfl, -, -⟩
          rw [wp_bind, wp_modify, wp_bind, wp_get, wp_bind]
          refine wp_mono (subtract_wp _ _ _) ?_ fun _ _ _ => trivial
          rintro rsvd _ ⟨rfl, -, -⟩
          rw [wp_bind, wp_modify]
          refine wp_mono (persistMap_recorded _) ?_ fun _ _ _ => trivial
          intro _ g' recorded
          exact ⟨e, entry, later, ⟨hdr, read, not_not.mp empty⟩, not_not.mp present,
              recorded.entries,
            recorded.blocksize, recorded.agmapOffset, recorded.agmapLength, recorded.journalStart,
            recorded.grows,
            recorded.bytes⟩

/-- What a round of the loop has done to AG `ag`. -/
def Evicted (g g' : Gofs) (newSize ag : Nat) (e : AgEntry) : Prop :=
  g.Retired g' ag e ∨ ∃ dest, g.map.findGap g.sb.blocksize (e.length * g.sb.blocksize)
  newSize = some dest ∧
    g.Moved g' ag dest e

theorem evict_done (newSize : Nat) (g : Gofs) (entry : g.map.entries[ag]? = some e) :
    wp (evict ag e newSize) (fun _ g' => g.Evicted g' newSize ag e) Fails g := by
  rw [evict, wp_ite]
  split
  · trivial
  · rw [wp_bind]
    refine wp_mono (readAgHeader_run ag g) ?_ fun _ _ _ => trivial
    rintro hdr _ ⟨rfl, read⟩
    rename_i g
    rw [wp_ite]
    split
    · refine wp_mono (retire_done g ag) ?_ fun _ _ _ => trivial
      rintro _ g' ⟨e', entry', retired⟩
      rw [entry] at entry'
      cases entry'
      exact .inl retired
    · rw [wp_bind, wp_get]
      split
      · trivial
      · rename_i dest found
        refine wp_mono (relocate_moved g ag dest) ?_ fun _ _ _ => trivial
        rintro _ g' ⟨e', entry', moved⟩
        rw [entry] at entry'
        cases entry'
        exact .inr ⟨dest, found, moved⟩

/-- A volume as mkfs and the resize calls make it. -/
structure Regular (g : Gofs) : Prop extends Sited g where
  aligned : ∀ e ∈ g.map.entries, ∀ s ∈ e.segs, s.devOffset % g.sb.blocksize = 0
  some_block : ∀ e ∈ g.map.entries, e.present → 0 < e.length

/-- `g'` has one entry behind AG 0 exchanged, and its geometry is that of `g`. -/
structure Exchanged (g g' : Gofs) (ag : Nat) (e : AgEntry) : Prop where
  later : ag ≠ 0
  entries : g'.map.entries = g.map.entries.set ag e
  blocksize : g'.sb.blocksize = g.sb.blocksize
  agmapOffset : g'.sb.agmapOffset = g.sb.agmapOffset
  agmapLength : g'.sb.agmapLength = g.sb.agmapLength
  journalStart : g'.sb.journalStart = g.sb.journalStart
  grows : g.dev.fileLen ≤ g'.dev.fileLen

/-- An entry of the volume. -/
structure Sits (bs fileLen : Nat) (e : AgEntry) : Prop where
  tiled : e.present → e.length < 2 ^ 32 ∧ e.Tiled
  inside : e.present → ∀ s ∈ e.segs, s.devEnd bs ≤ fileLen
  aligned : ∀ s ∈ e.segs, s.devOffset % bs = 0
  some_block : e.present → 0 < e.length

omit [Crc32c] in
theorem Regular.exchanged (regular : g.Regular) (exchanged : g.Exchanged g' ag e)
    (sits : Sits g.sb.blocksize g'.dev.fileLen e)
    (apart : ∀ i f, g.map.entries[i]? = some f → i ≠ ag → f.Apart g.sb.blocksize e) :
    g'.Regular := by
  have member : ∀ f ∈ g'.map.entries, f ∈ g.map.entries ∨ f = e := by
    intro f hf
    rw [exchanged.entries] at hf
    exact List.mem_or_eq_of_mem_set hf
  obtain ⟨k, rfl⟩ := Nat.exists_eq_succ_of_ne_zero exchanged.later
  have block := exchanged.blocksize
  refine ⟨⟨⟨?_, ?_, ?_, ?_⟩, ?_, ?_, ?_⟩, ?_, ?_⟩
  · obtain ⟨len, rest, entries, behind⟩ := regular.rooted.first
    refine ⟨len, rest.set k e, ?_, ?_⟩
    · rw [exchanged.entries, entries]
      rfl
    · rw [exchanged.journalStart, block]
      exact behind
  · rw [block]
    exact regular.rooted.block
  · rw [block, exchanged.agmapOffset]
    exact regular.rooted.primary
  · rw [block, exchanged.agmapOffset, exchanged.agmapLength, exchanged.journalStart]
    exact regular.rooted.copies
  · intro f hf present
    rcases member f hf with old | rfl
    · exact regular.tiled f old present
    · exact sits.tiled present
  · intro f hf present s hs
    rw [block]
    rcases member f hf with old | rfl
    · exact Nat.le_trans (regular.inside f old present s hs) exchanged.grows
    · exact sits.inside present s hs
  · rw [exchanged.entries, block]
    exact AgMap.apart_set regular.apart apart
  · intro f hf s hs
    rw [block]
    rcases member f hf with old | rfl
    · exact regular.aligned f old s hs
    · exact sits.aligned s hs
  · intro f hf present
    rcases member f hf with old | rfl
    · exact regular.some_block f old present
    · exact sits.some_block present

/-- The entry of an AG that was moved. -/
def movedEntry (e : AgEntry) (dest : Nat) : AgEntry := { e with segs := [⟨0, e.length, dest⟩] }

theorem Retired.exchanged (retired : g.Retired g' ag e) : g.Exchanged g' ag (retiredEntry e) where
  later := retired.later
  entries := retired.done.entries
  blocksize := retired.done.blocksize
  agmapOffset := retired.done.agmapOffset
  agmapLength := retired.done.agmapLength
  journalStart := retired.done.journalStart
  grows := retired.done.grows

omit [Crc32c] in
theorem retiredEntry_absent (e : AgEntry) : ¬ (retiredEntry e).present := by
  have flags : (retiredEntry e).flags = AGF_RETIRED := rfl
  rw [AgEntry.present, flags]
  decide

theorem Retired.regular (regular : g.Regular) (retired : g.Retired g' ag e) : g'.Regular := by
  have absent := retiredEntry_absent e
  refine regular.exchanged retired.exchanged ⟨fun present => (absent present).elim,
      fun present => (absent present).elim,
    fun s hs => absurd hs List.not_mem_nil, fun present => (absent present).elim⟩
    fun _ _ _ _ s _ t ht =>
      absurd ht List.not_mem_nil

omit [Crc32c] in
theorem Moved.exchanged (sited : g.Sited) (moved : g.Moved g' ag dest e)
    (entry : g.map.entries[ag]? = some e) :
    g.Exchanged g' ag (movedEntry e dest) := by
  obtain ⟨entries, blocksize, grows⟩ := moved.entries
  obtain ⟨g₁, copied, recorded⟩ := moved.done
  refine ⟨moved.ne_zero sited entry, entries, blocksize, ?_, ?_, ?_, grows⟩
  · rw [recorded.agmapOffset, copied.sb]
  · rw [recorded.agmapLength, copied.sb]
  · rw [recorded.journalStart, copied.sb]

omit [Crc32c] in
theorem Moved.regular (regular : g.Regular) (moved : g.Moved g' ag dest e)
    (entry : g.map.entries[ag]? = some e)
    (aligned : dest % g.sb.blocksize = 0) : g'.Regular := by
  have sited := regular.toSited
  have member := List.mem_of_getElem? entry
  have some_block := regular.some_block e member moved.present
  obtain ⟨short, -⟩ := regular.tiled e member moved.present
  refine regular.exchanged (moved.exchanged sited entry)
      ⟨fun _ => ⟨short, AgEntry.tiled_single _ _ _⟩, fun _ s hs => ?_,
    fun s hs => ?_, fun _ => some_block⟩ fun i f entry' other s hs t ht => ?_
  · cases List.mem_singleton.mp hs
    obtain ⟨-, reached⟩ := moved.home sited entry (l := e.length - 1) (by omega)
    have last : e.length * g.sb.blocksize = (e.length - 1) * g.sb.blocksize + g.sb.blocksize := by
      rw [← Nat.succ_mul]
      congr 1
      omega
    rw [AgSegment.devEnd]
    dsimp only
    omega
  · cases List.mem_singleton.mp hs
    exact aligned
  · cases List.mem_singleton.mp ht
    exact AgMap.apart_of_overlaps moved.clear entry' other s hs

/-- What the rounds of the loop keep: the geometry and AG 0, and of every AG that remains the
contents; an AG that does not had no block in use. -/
structure Shrunk (g g' : Gofs) : Prop where
  regular : g'.Regular
  first : g'.map.entries[0]? = g.map.entries[0]?
  blocksize : g'.sb.blocksize = g.sb.blocksize
  agmapOffset : g'.sb.agmapOffset = g.sb.agmapOffset
  agmapLength : g'.sb.agmapLength = g.sb.agmapLength
  count : g'.map.entries.length = g.map.entries.length
  kept : ∀ a e e', g.map.entries[a]? = some e → g'.map.entries[a]? = some e' → e'.present →
    e.present ∧ e'.length = e.length ∧ ∀ l < e.length, ¬ g.VolumeRecord (blkAddr a l) →
      (readBlock (blkAddr a l) g').1 = (readBlock (blkAddr a l) g).1
  empty : ∀ a e e', g.map.entries[a]? = some e → g'.map.entries[a]? = some e' → e.present →
      ¬ e'.present →
    a ≠ 0 ∧ ∃ hdr, (readAgHeader a g).1 = .ok hdr ∧ hdr.fullBlocks = 0

variable {a l : Nat}

theorem Shrunk.refl (regular : g.Regular) : g.Shrunk g := by
  refine ⟨regular, rfl, rfl, rfl, rfl, rfl, fun a e e' entry entry' present => ?_,
      fun a e e' entry entry' present absent => ?_⟩
  · rw [entry] at entry'
    cases entry'
    exact ⟨present, rfl, fun _ _ _ => rfl⟩
  · rw [entry] at entry'
    cases entry'
    exact (absent present).elim

omit [Crc32c] in
theorem backupOff_first {m m' : AgMap} (first : m'.entries[0]? = m.entries[0]?) (bs : Nat) :
    backupOff m' bs = backupOff m bs := by
  obtain ⟨gen, entries⟩ := m
  obtain ⟨gen', entries'⟩ := m'
  cases entries <;> cases entries' <;> simp_all [backupOff]

theorem Shrunk.record (h : g.Shrunk g') {e' : AgEntry} (entry' : g'.map.entries[a]? = some e')
    (present : e'.present) (inside : l < e'.length)
    (record : g'.VolumeRecord (blkAddr a l)) : g.VolumeRecord (blkAddr a l) := by
  obtain ⟨off, found, i, low, high, record⟩ := record
  by_cases head : a = 0
  · subst head
    have short := (h.regular.tiled e' (List.mem_of_getElem? entry') present).1
    have same : g'.map.resolve (blkAddr 0 l) g'.sb.blocksize = g.map.resolve (blkAddr 0 l)
        g.sb.blocksize := by
      have split : blkSplit (blkAddr 0 l) = (0, l) := by
        rw [blkSplit, blkAddr, Nat.zero_mul, Nat.zero_add, Nat.div_eq_of_lt (by omega),
            Nat.mod_eq_of_lt (by omega)]
      rw [AgMap.resolve, AgMap.resolve, split]
      dsimp only
      rw [h.first, h.blocksize]
    rw [same] at found
    refine ⟨off, found, i, low, h.blocksize ▸ high, ?_⟩
    rw [InRecord, h.agmapOffset, h.agmapLength, h.blocksize, backupOff_first h.first] at record
    exact record
  · obtain ⟨s, hs, lower, upper, found', within, -⟩ := h.regular.toSited.block entry' present inside
    rw [found'] at found
    cases found
    exact (h.regular.toSited.no_record entry' head hs (by omega) (by omega) record).elim

theorem readAgHeader_congr (same : (readBlock (blkAddr a (if a = 0 then 1 else 0)) g').1 =
    (readBlock (blkAddr a (if a = 0 then 1 else 0)) g).1) : (readAgHeader a g').1 =
    (readAgHeader a g).1 := by
  rw [readAgHeader, bind_run, bind_run]
  generalize readBlock (blkAddr a (if a = 0 then 1 else 0)) g' = read' at *
  generalize readBlock (blkAddr a (if a = 0 then 1 else 0)) g = read at *
  obtain ⟨r', s'⟩ := read'
  obtain ⟨r, s⟩ := read
  cases same
  cases r' with
  | error e => rfl
  | ok buf =>
      dsimp only
      cases AgHeader.parse buf <;> rfl

theorem Shrunk.trans (h : g.Shrunk g') (h' : g'.Shrunk g'') (regular : g.Regular) :
    g.Shrunk g'' := by
  have middle : ∀ (a : Nat) (e'' : AgEntry), g''.map.entries[a]? = some e'' → ∃ e' : AgEntry,
      g'.map.entries[a]? = some e' := by
    intro a e'' entry''
    have inside := (List.getElem?_eq_some_iff.mp entry'').1
    rw [h'.count] at inside
    exact ⟨_, List.getElem?_eq_getElem inside⟩
  refine ⟨h'.regular, h'.first.trans h.first, h'.blocksize.trans h.blocksize,
      h'.agmapOffset.trans h.agmapOffset,
    h'.agmapLength.trans h.agmapLength, h'.count.trans h.count,
    fun a e e'' entry entry'' present => ?_,
    fun a e e'' entry entry'' present absent => ?_⟩
  · obtain ⟨e', entry'⟩ := middle a e'' entry''
    obtain ⟨present', length', reads'⟩ := h'.kept a e' e'' entry' entry'' present
    obtain ⟨present₀, length, reads⟩ := h.kept a e e' entry entry' present'
    refine ⟨present₀, length'.trans length, fun l inside out => ?_⟩
    rw [← length] at inside
    rw [reads' l inside fun record => out (h.record entry' present' inside record),
      reads l (length ▸ inside) out]
  · obtain ⟨e', entry'⟩ := middle a e'' entry''
    by_cases present' : e'.present
    · obtain ⟨later, hdr, read, empty⟩ := h'.empty a e' e'' entry' entry'' present' absent
      obtain ⟨-, length, reads⟩ := h.kept a e e' entry entry' present'
      have some_block := regular.some_block e (List.mem_of_getElem? entry) present
      obtain ⟨s, hs, lower, upper, found, within, -⟩ :=
          regular.toSited.block entry present some_block
      have out : ¬ g.VolumeRecord (blkAddr a 0) := by
        rintro ⟨off, found', i, low, high, record⟩
        rw [found] at found'
        cases found'
        exact regular.toSited.no_record entry later hs (by omega) (by omega) record
      refine ⟨later, hdr, ?_, empty⟩
      rw [← read]
      refine (readAgHeader_congr ?_).symm
      rw [if_neg later]
      exact reads 0 some_block out
    · exact h.empty a e e' entry entry' present present'

omit [Crc32c] in
theorem Exchanged.entry (h : g.Exchanged g' ag e) {f : AgEntry} (other : a ≠ ag) :
    g'.map.entries[a]? = some f ↔ g.map.entries[a]? = some f := by
  rw [h.entries, List.getElem?_set_ne (Ne.symm other)]

omit [Crc32c] in
theorem Exchanged.own (h : g.Exchanged g' ag e) {f f' : AgEntry}
    (entry : g.map.entries[ag]? = some f)
    (entry' : g'.map.entries[ag]? = some f') : f' = e := by
  rw [h.entries, List.getElem?_set_self (List.getElem?_eq_some_iff.mp entry).1] at entry'
  cases entry'
  rfl

theorem Retired.others (sited : g.Sited) (retired : g.Retired g' ag e) (other : a ≠ ag)
    (has : g.map.Has a l)
    (out : ¬ g.VolumeRecord (blkAddr a l)) : (readBlock (blkAddr a l) g').1 =
    (readBlock (blkAddr a l) g).1 := by
  obtain ⟨e', entry', present', inside'⟩ := has
  obtain ⟨s, hs, low, high, found, within, fits⟩ := sited.block entry' present' inside'
  obtain ⟨short, -⟩ := sited.tiled e' (List.mem_of_getElem? entry') present'
  have exchanged := retired.exchanged
  have grows := exchanged.grows
  have found' : g'.map.resolve (blkAddr a l) g'.sb.blocksize =
      some (s.devOffset + (l - s.agBlock) * g.sb.blocksize) := by
    have same := AgMap.resolve_set (m := g.map) g.sb.blocksize (retiredEntry e) other (l := l)
        (by omega) g'.map.gen
    rw [exchanged.blocksize, ← found, ← same, ← exchanged.entries]
  rw [readBlock_value found (by omega), readBlock_value found' (by rw [exchanged.blocksize]; omega),
      exchanged.blocksize]
  refine congrArg _ (clip_congr fun i hi => ?_)
  refine retired.done.bytes _ fun record => out
      ⟨_, found, _, Nat.le_add_right _ _, Nat.add_lt_add_left hi _, ?_⟩
  rw [InRecord, backupOff_set _ _ retired.later] at record
  exact record

theorem Evicted.shrunk (regular : g.Regular) (entry : g.map.entries[ag]? = some e)
    (evicted : g.Evicted g' newSize ag e) : g.Shrunk g' := by
  have sited := regular.toSited
  have aligned : ∀ s ∈ g.map.segs, s.devOffset % g.sb.blocksize = 0 := by
    intro s hs
    obtain ⟨f, hf, hs⟩ := List.mem_flatMap.mp hs
    exact regular.aligned f hf s hs
  rcases evicted with retired | ⟨dest, found, moved⟩
  · have exchanged := retired.exchanged
    refine ⟨retired.regular regular, ?_, exchanged.blocksize, exchanged.agmapOffset,
        exchanged.agmapLength, ?_,
      fun a f f' here there present => ?_, fun a f f' here there present absent => ?_⟩
    · rw [exchanged.entries, List.getElem?_set_ne exchanged.later]
    · rw [exchanged.entries, List.length_set]
    · by_cases own : a = ag
      · subst own
        rw [exchanged.own here there] at present
        exact (retiredEntry_absent e present).elim
      · rw [exchanged.entry own, here] at there
        cases there
        exact ⟨present, rfl, fun l inside out => retired.others sited own ⟨f, here, present, inside⟩
            out⟩
    · by_cases own : a = ag
      · subst own
        obtain ⟨hdr, read, empty⟩ := retired.empty
        exact ⟨retired.later, hdr, by rw [read], empty⟩
      · rw [exchanged.entry own, here] at there
        cases there
        exact (absent present).elim
  · have exchanged := moved.exchanged sited entry
    have onBlock := AgMap.findGap_aligned aligned found
    refine ⟨moved.regular regular entry onBlock, ?_, exchanged.blocksize, exchanged.agmapOffset,
        exchanged.agmapLength,
      ?_, fun a f f' here there present => ?_, fun a f f' here there present absent => ?_⟩
    · rw [exchanged.entries, List.getElem?_set_ne exchanged.later]
    · rw [exchanged.entries, List.length_set]
    · by_cases own : a = ag
      · subst own
        rw [exchanged.own here there]
        rw [entry] at here
        cases here
        refine ⟨moved.present, rfl, fun l inside _ => ?_⟩
        obtain ⟨-, tiled⟩ := regular.tiled e (List.mem_of_getElem? entry) moved.present
        refine (moved.own_iff sited entry).mpr (agrees_apart _ tiled fun s hs => ?_) l inside
        exact AgMap.findGap_clear found s (List.mem_flatMap.mpr ⟨e, List.mem_of_getElem? entry, hs⟩)
      · rw [exchanged.entry own, here] at there
        cases there
        exact ⟨present, rfl, fun l inside out => moved.others sited entry own
            ⟨f, here, present, inside⟩ out⟩
    · by_cases own : a = ag
      · subst own
        rw [exchanged.own here there] at absent
        exact (absent moved.present).elim
      · rw [exchanged.entry own, here] at there
        cases there
        exact (absent present).elim

/-- The AGs that the loop has to move. -/
def reaches (bs newSize : Nat) (e : AgEntry) : Bool :=
  e.present && e.segs.any fun s => s.devEnd bs > newSize

def pending (newSize : Nat) (g : Gofs) : Nat :=
  g.map.entries.countP (reaches g.sb.blocksize newSize)

omit [Crc32c] in
theorem reaches_retired (bs newSize : Nat) (e : AgEntry) :
    reaches bs newSize (retiredEntry e) = false := by
  rw [reaches, Bool.eq_false_iff.mpr (retiredEntry_absent e), Bool.false_and]

omit [Crc32c] in
theorem firstBeyond_some {m : AgMap} {bs : Nat} (found : firstBeyond m bs newSize = some (e, ag)) :
    m.entries[ag]? = some e ∧ reaches bs newSize e := by
  have far := List.find?_some found
  exact ⟨List.mem_zipIdx_iff_getElem?.mp (List.mem_of_find?_eq_some found), far⟩

omit [Crc32c] in
theorem firstBeyond_none {m : AgMap} {bs : Nat} (none' : firstBeyond m bs newSize = none)
    (member : e ∈ m.entries)
    (present : e.present) {s : AgSegment} (hs : s ∈ e.segs) : s.devEnd bs ≤ newSize := by
  obtain ⟨i, entry⟩ := List.getElem?_of_mem member
  have passed := List.find?_eq_none.mp none' (e, i) (List.mem_zipIdx_iff_getElem?.mpr entry)
  by_contra past
  refine passed ?_
  simp only [present, Bool.true_and, List.any_eq_true, decide_eq_true_eq]
  exact ⟨s, hs, by omega⟩

theorem Evicted.pending (entry : g.map.entries[ag]? = some e)
    (far : reaches g.sb.blocksize newSize e)
    (some_bytes : 0 < e.length * g.sb.blocksize) (evicted : g.Evicted g' newSize ag e) :
    g'.pending newSize < g.pending newSize := by
  obtain ⟨inside, here⟩ := List.getElem?_eq_some_iff.mp entry
  have one : 0 < g.map.entries.countP (reaches g.sb.blocksize newSize) :=
    List.countP_pos_iff.mpr ⟨e, List.mem_of_getElem? entry, far⟩
  have drops : ∀ f : AgEntry, reaches g.sb.blocksize newSize f = false →
      (g.map.entries.set ag f).countP (reaches g.sb.blocksize newSize) <
        g.map.entries.countP (reaches g.sb.blocksize newSize) := by
    intro f near
    rw [List.countP_set inside, here, if_pos far, near]
    simp only [Bool.false_eq_true, if_false]
    omega
  rw [Gofs.pending, Gofs.pending]
  rcases evicted with retired | ⟨dest, found, moved⟩
  · rw [retired.done.entries, retired.done.blocksize]
    exact drops _ (reaches_retired _ _ e)
  · obtain ⟨entries, blocksize, -⟩ := moved.entries
    have low := AgMap.gapFrom_limit some_bytes found
    rw [entries, blocksize]
    have near : ¬ (AgSegment.mk 0 e.length dest).devEnd g.sb.blocksize > newSize := by
      rw [AgSegment.devEnd]
      exact Nat.not_lt.mpr low
    refine drops _ ?_
    rw [reaches, List.any_cons, List.any_nil, Bool.or_false, decide_eq_false near, Bool.and_false]

/-- The failures of the code itself, the bound on the rounds apart. -/
def Genuine (e : Err) : Prop := e ≠ .panic "shrink does not end"

instance : DecidablePred Genuine := fun e => inferInstanceAs
    (Decidable (e ≠ .panic "shrink does not end"))

omit [Crc32c] in
theorem genuine_bail (m : String) : Genuine (.bail m) := Err.noConfusion

omit [Crc32c] in
theorem raises_pread (off n : Nat) : Raises (pread off n) Genuine := by
  intro g
  rw [wp, pread]
  cases g.dev.pread off n with
  | ok buf => trivial
  | error m => exact genuine_bail m

omit [Crc32c] in
theorem raises_readBlock (blk : Nat) : Raises (readBlock blk) Genuine := by
  refine raises_get fun g => raises_bind (raises_get fun g => ?_) fun off => raises_pread _ _
  split
  · exact raises_pure _
  · exact raises_bail (genuine_bail _)

theorem raises_readAgHeader (ag : Nat) : Raises (readAgHeader ag) Genuine := by
  refine raises_bind (raises_readBlock _) fun buf => ?_
  split
  · exact raises_pure _
  · exact raises_bail (genuine_bail _)

omit [Crc32c] in
theorem raises_subtract (a b : Nat) : Raises (subtract a b) Genuine :=
  raises_ite (fun _ => raises_pure _) fun _ => raises_panicWith (by decide)

omit [Crc32c] in
theorem raises_increase (width a b : Nat) : Raises (increase width a b) Genuine :=
  raises_ite (fun _ => raises_pure _) fun _ => raises_panicWith (by decide)

omit [Crc32c] in
theorem raises_pwrite (off n : Nat) (buf : Bytes) : Raises (pwrite off n buf) Genuine :=
  raises_modify _

theorem raises_writeAgmap : Raises writeAgmap Genuine := by
  refine raises_get fun g => raises_bind (raises_increase _ _ _) fun gen =>
      raises_bind (raises_modify _) fun _ =>
    raises_get fun g => raises_bind ?_ fun bytes => raises_bind (raises_pwrite _ _ _) fun _ =>
        raises_pwrite _ _ _
  intro g'
  rw [wp_ofResult]
  split
  · trivial
  · exact genuine_bail _

theorem raises_writeSuperblock : Raises writeSuperblock Genuine := by
  intro g
  simp only [writeSuperblock, wp_bind, wp_get, wp_ite, wp_panicWith, wp_modify, pwrite]
  split
  · exact (by decide : Genuine (.panic "attempt to add with overflow"))
  · split <;> trivial

theorem raises_persistMap : Raises persistMap Genuine :=
  raises_bind raises_writeAgmap fun _ => raises_bind raises_writeSuperblock fun _ => raises_modify _

omit [Crc32c] in
theorem raises_copyLoop (src dst total chunk fuel done : Nat) :
    Raises (copyLoop src dst total chunk fuel done) Genuine := by
  induction fuel generalizing done with
  | zero => exact raises_pure _
  | succ fuel ih =>
      refine raises_ite (fun _ => raises_bind (raises_pread _ _) fun buf =>
          raises_bind (raises_pwrite _ _ _) fun _ => ih _)
        fun _ => raises_pure _

omit [Crc32c] in
theorem raises_copySegs (dest bs : Nat) (segs : List AgSegment) :
    Raises (copySegs dest bs segs) Genuine := by
  induction segs with
  | nil => exact raises_pure _
  | cons s rest ih => exact raises_bind (raises_copyLoop _ _ _ _ _ _) fun _ => ih

theorem raises_relocate (ag dest : Nat) : Raises (relocate ag dest) Genuine := by
  refine raises_get fun g => raises_ite (fun _ => raises_bail (genuine_bail _)) fun _ => ?_
  split
  · exact raises_bail (genuine_bail _)
  · refine raises_ite (fun _ => raises_bail (genuine_bail _)) fun _ =>
        raises_ite (fun _ => raises_bail (genuine_bail _))
      fun _ => raises_ite (fun _ => raises_bail (genuine_bail _)) fun _ => raises_ite
        (fun _ => raises_bail (genuine_bail _)) fun _ => ?_
    exact raises_bind (raises_copySegs _ _ _) fun _ => raises_bind (raises_modify _) fun _ =>
      raises_bind (raises_modify _) fun _ => raises_persistMap

theorem raises_retire (ag : Nat) : Raises (retire ag) Genuine := by
  refine raises_ite (fun _ => raises_bail (genuine_bail _)) fun _ =>
      raises_bind (raises_readAgHeader ag) fun hdr =>
    raises_ite (fun _ => raises_bail (genuine_bail _)) fun _ => raises_get fun g => ?_
  split
  · exact raises_panicWith (by decide)
  · refine raises_ite (fun _ => raises_bail (genuine_bail _)) fun _ =>
        raises_bind (raises_modify _) fun _ =>
      raises_get fun g => raises_bind (raises_subtract _ _) fun free =>
          raises_bind (raises_modify _) fun _ =>
        raises_get fun g => raises_bind (raises_subtract _ _) fun rsvd =>
            raises_bind (raises_modify _) fun _ =>
          raises_persistMap

theorem raises_evict (ag : Nat) (e : AgEntry) (newSize : Nat) :
    Raises (evict ag e newSize) Genuine := by
  refine raises_ite (fun _ => raises_bail (genuine_bail _)) fun _ =>
      raises_bind (raises_readAgHeader ag) fun hdr =>
    raises_ite (fun _ => raises_retire ag) fun _ => raises_get fun g => ?_
  split
  · exact raises_bail (genuine_bail _)
  · exact raises_relocate _ _

/-- No PRESENT AG is of zero bytes. -/
def Filled (g : Gofs) : Prop := ∀ e ∈ g.map.entries, e.present → 0 < e.length * g.sb.blocksize

omit [Crc32c] in
theorem Regular.filled (regular : g.Regular) : g.Filled := fun e member present =>
  Nat.mul_pos (regular.some_block e member present)
      (Nat.lt_of_lt_of_le (by decide) regular.rooted.block)

theorem Evicted.filled (filled : g.Filled) (entry : g.map.entries[ag]? = some e)
    (evicted : g.Evicted g' newSize ag e) : g'.Filled := by
  have member := List.mem_of_getElem? entry
  rcases evicted with retired | ⟨dest, -, moved⟩
  · intro f hf present
    rw [retired.done.entries] at hf
    rw [retired.done.blocksize]
    rcases List.mem_or_eq_of_mem_set hf with old | rfl
    · exact filled f old present
    · exact (retiredEntry_absent e present).elim
  · obtain ⟨entries, blocksize, -⟩ := moved.entries
    intro f hf present
    rw [entries] at hf
    rw [blocksize]
    rcases List.mem_or_eq_of_mem_set hf with old | rfl
    · exact filled f old present
    · exact filled e member moved.present

theorem shrinkLoop_ends (fuel : Nat) (filled : g.Filled) (enough : g.pending newSize < fuel) :
    wp (shrinkLoop newSize fuel) (fun _ _ => True) (fun e _ => Genuine e) g := by
  induction fuel generalizing g with
  | zero => omega
  | succ fuel ih =>
      rw [shrinkLoop, wp_bind, wp_get]
      split
      · trivial
      · rename_i e ag found
        obtain ⟨entry, far⟩ := firstBeyond_some found
        rw [wp_bind]
        have both := wp_and (evict_done newSize g entry) (raises_evict ag e newSize g)
        refine wp_mono both ?_ fun _ _ ends => ends.2
        rintro _ g' ⟨evicted, -⟩
        have present : e.present := (Bool.and_eq_true_iff.mp far).1
        have fewer := evicted.pending entry far (filled e (List.mem_of_getElem? entry) present)
        exact ih (evicted.filled filled entry) (by omega)

theorem shrinkLoop_shrunk (fuel : Nat) (regular : g.Regular) :
    wp (shrinkLoop newSize fuel) (fun _ g' => g.Shrunk g' ∧
    firstBeyond g'.map g'.sb.blocksize newSize = none) Fails g := by
  induction fuel generalizing g with
  | zero => trivial
  | succ fuel ih =>
      rw [shrinkLoop, wp_bind, wp_get]
      split
      · rename_i none'
        exact ⟨.refl regular, none'⟩
      · rename_i e ag found
        obtain ⟨entry, -⟩ := firstBeyond_some found
        rw [wp_bind]
        refine wp_mono (evict_done newSize g entry) ?_ fun _ _ _ => trivial
        intro _ g' evicted
        have round := evicted.shrunk regular entry
        refine wp_mono (ih round.regular) ?_ fun _ _ _ => trivial
        rintro _ g'' ⟨later, none'⟩
        exact ⟨round.trans later regular, none'⟩

omit [Crc32c] in
theorem readBlock_setLen (regular : g.Regular)
    (low : ∀ e ∈ g.map.entries, e.present → ∀ s ∈ e.segs, s.devEnd g.sb.blocksize ≤ newSize)
    (has : g.map.Has a l) :
    (readBlock (blkAddr a l) { g with dev := g.dev.setLen newSize }).1 =
    (readBlock (blkAddr a l) g).1 := by
  obtain ⟨e, entry, present, inside⟩ := has
  obtain ⟨s, hs, lower, upper, found, within, fits⟩ := regular.toSited.block entry present inside
  have kept := low e (List.mem_of_getElem? entry) present s hs
  have shorter : s.devOffset + (l - s.agBlock) * g.sb.blocksize + g.sb.blocksize ≤ newSize := by
    omega
  rw [readBlock_value found (by omega),
    readBlock_value (g := { g with dev := g.dev.setLen newSize }) found shorter]
  refine congrArg _ (clip_congr fun i hi => ?_)
  have bound : i < g.sb.blocksize := hi
  exact clip_of_lt _ (by omega)

theorem shrink_done {newSize : Nat} {g g' : Gofs} (run : shrink newSize g = (.ok (), g')) :
    ∃ g₁, shrinkLoop newSize (g.map.entries.length + 1) g = (.ok (), g₁) ∧
    g' = { g₁ with dev := g₁.dev.setLen newSize } := by
  rw [shrink, bind_ok _ _ (get_run (s := g)), bind_run] at run
  split at run
  · rename_i loop
    cases run
    exact ⟨_, loop, rfl⟩
  · cases run

theorem shrinkLoop_none (fuel : Nat) (g : Gofs) :
    wp (shrinkLoop newSize fuel) (fun _ g' => firstBeyond g'.map g'.sb.blocksize newSize = none)
    Fails g := by
  induction fuel generalizing g with
  | zero => trivial
  | succ fuel ih =>
      rw [shrinkLoop, wp_bind, wp_get]
      split
      · assumption
      · rw [wp_bind]
        refine wp_of_run fun _ g' _ => ih g'

theorem readAgHeader_of {buf : Bytes} {hdr : AgHeader}
    (read : (readBlock (blkAddr ag (if ag = 0 then 1 else 0)) g).1 = .ok buf)
    (parsed : AgHeader.parse buf = .ok hdr) :
    readAgHeader ag g = (.ok hdr, g) := by
  have same := readBlock_wp (blkAddr ag (if ag = 0 then 1 else 0)) g
  rw [readAgHeader, bind_run]
  rcases run : readBlock (blkAddr ag (if ag = 0 then 1 else 0)) g with ⟨r, g'⟩
  rw [run] at read
  cases read
  cases wp_ok same run
  dsimp only
  rw [parsed]
  rfl

/-- The state that `retire` stores. -/
def retiring (g : Gofs) (ag : Nat) (e : AgEntry) (hdr : AgHeader) : Gofs := { g with
  map := { g.map with entries := g.map.entries.set ag (retiredEntry e) }
  sb := { g.sb with
    freeBlocks := g.sb.freeBlocks - hdr.freeBlocks
    rsvdBlocks := g.sb.rsvdBlocks - hdr.rsvdBlocks } }

theorem retire_run {hdr : AgHeader} (later : ag ≠ 0) (read : readAgHeader ag g = (.ok hdr, g))
    (empty : hdr.fullBlocks = 0) (entry : g.map.entries[ag]? = some e) (present : e.present)
    (free : hdr.freeBlocks ≤ g.sb.freeBlocks) (rsvd : hdr.rsvdBlocks ≤ g.sb.rsvdBlocks) :
    retire ag g = persistMap (g.retiring ag e hdr) := by
  rw [retire, if_neg later, bind_ok _ _ read, if_neg (not_not.mpr empty), bind_ok _ _ get_run]
  simp only [entry]
  rw [if_neg (not_not.mpr present), setEntry, bind_ok _ _ (modify_run _), bind_ok _ _ get_run]
  simp only [subtract, if_pos free, if_pos rsvd, bind_run, pure_run, modify_run, get_run, retiring,
      retiredEntry]

theorem evict_empty {hdr : AgHeader} (later : ag ≠ 0) (read : readAgHeader ag g = (.ok hdr, g))
    (empty : hdr.fullBlocks = 0) :
    evict ag e newSize g = retire ag g := by
  rw [evict, if_neg later, bind_ok _ _ read, if_pos empty]

theorem shrink_retires {hdr : AgHeader} (regular : g.Regular)
    (first : firstBeyond g.map g.sb.blocksize newSize = some (e, ag)) (later : ag ≠ 0)
    (read : readAgHeader ag g = (.ok hdr, g)) (empty : hdr.fullBlocks = 0)
    (run : retire ag g = (.ok (), g'))
    (last : firstBeyond { g.map with entries := g.map.entries.set ag (retiredEntry e) }
    g.sb.blocksize newSize = none) :
    shrink newSize g = (.ok (), { g' with dev := g'.dev.setLen newSize }) ∧ g.Shrunk g' := by
  obtain ⟨entry, -⟩ := firstBeyond_some first
  have round : evict ag e newSize g = (.ok (), g') := by
    rw [evict_empty later read empty]
    exact run
  have evicted := wp_ok (evict_done newSize g entry) round
  refine ⟨?_, evicted.shrunk regular entry⟩
  obtain ⟨e', entry', retired⟩ := wp_ok (retire_done g ag) run
  rw [entry] at entry'
  cases entry'
  have last' : firstBeyond g'.map g'.sb.blocksize newSize = none := by
    rw [firstBeyond, retired.done.entries, retired.done.blocksize]
    exact last
  obtain ⟨n, count⟩ := Nat.exists_eq_add_one_of_ne_zero
      (Nat.ne_of_gt (List.length_pos_of_mem (List.mem_of_getElem? entry)))
  rw [shrink, bind_ok _ _ (get_run (s := g)), count, shrinkLoop, bind_run, bind_ok _ _ get_run]
  simp only [first]
  rw [bind_ok _ _ round, shrinkLoop, bind_ok _ _ get_run]
  simp only [last']
  rfl

end Gofs

/-- The header of an AG of 1024 blocks with none in use. -/
def emptyHeader : AgHeader :=
  { agNum := 1, gen := 1, length := 1024, freeBlocks := 768, rsvdBlocks := 256, allocRoot := 1 }

def tailEntry : AgEntry := ⟨AGF_PRESENT, 1024, [⟨0, 1024, 8388608⟩]⟩

/-- The striped volume with the header of an empty AG. -/
def tailVolume : Gofs := { stripedVolume with
  dev := stripedVolume.dev.pwrite 8388608 AGHDR_SIZE (@AgHeader.toBytes castagnoli emptyHeader)
  sb := { stripedVolume.sb with freeBlocks := 1024, rsvdBlocks := 4096 } }

theorem tailVolume_regular : tailVolume.Regular := by
  have both : ∀ {P : AgEntry → Prop}, P ⟨AGF_PRESENT ||| AGF_IMMOVABLE, 4096, [⟨0, 4096, 0⟩]⟩ →
      P tailEntry → ∀ e ∈ tailVolume.map.entries, P e := by
    intro P head tail e member
    rcases List.mem_cons.mp member with rfl | later
    · exact head
    · cases List.mem_singleton.mp later
      exact tail
  obtain ⟨rooted, tiled, -, apart⟩ := stripedVolume_sited
  refine ⟨⟨⟨rooted.first, rooted.block, rooted.primary, rooted.copies⟩, tiled, ?_, apart⟩, ?_, ?_⟩
  · refine both (fun _ s hs => ?_) fun _ s hs => ?_
    · cases List.mem_singleton.mp hs
      decide
    · cases List.mem_singleton.mp hs
      decide
  · refine both (fun s hs => ?_) fun s hs => ?_
    · cases List.mem_singleton.mp hs
      decide
    · cases List.mem_singleton.mp hs
      decide
  · exact both (fun _ => by decide) fun _ => by decide

theorem tailVolume_header : @Gofs.readAgHeader castagnoli 1
    tailVolume = (.ok emptyHeader, tailVolume) := by
  let crc := castagnoli
  have found : tailVolume.map.resolve (blkAddr 1 0) tailVolume.sb.blocksize = some 8388608 := by
    decide
  have fits : emptyHeader.Fits :=
    ⟨by decide, by decide, by decide, by decide, by decide, by decide, by decide, by decide,
      by decide, by decide⟩
  have written : ∀ i < AGHDR_SIZE, drop 8388608 tailVolume.dev.bytes i = emptyHeader.toBytes i :=
    (Device.holds_pwrite stripedVolume.dev 8388608 AGHDR_SIZE emptyHeader.toBytes).same
  refine Gofs.readAgHeader_of (Gofs.readBlock_value found (by decide)) ?_
  rw [← AgHeader.parse_clip, clip_clip_of_le (by decide), clip_congr written, AgHeader.parse_clip,
    AgHeader.parse_toBytes fits]

theorem tailVolume_retires : ∃ g', @Gofs.retire castagnoli 1 tailVolume = (.ok (), g') ∧
    g'.dev.bytes 6144 = 53 := by
  let crc := castagnoli
  have stored : (match Gofs.persistMap (tailVolume.retiring 1 tailEntry emptyHeader) with
      | (.ok _, g') => g'.dev.bytes 6144 == 53
      | (.error _, _) => false) = true := by
    decide +kernel
  have run : Gofs.retire 1 tailVolume = Gofs.persistMap
      (tailVolume.retiring 1 tailEntry emptyHeader) :=
    Gofs.retire_run (by decide) tailVolume_header rfl rfl rfl (by decide) (by decide)
  rw [← run] at stored
  rcases retired : Gofs.retire 1 tailVolume with ⟨e | ⟨⟩, g'⟩
  · rw [retired] at stored
    cases stored
  · rw [retired] at stored
    exact ⟨g', rfl, eq_of_beq stored⟩

theorem tailVolume_shrinks : ∃ g₁, @Gofs.shrink castagnoli (8 <<< 20) tailVolume =
    (.ok (), { g₁ with dev := g₁.dev.setLen (8 <<< 20) }) ∧ @Gofs.Shrunk castagnoli tailVolume g₁ ∧
      g₁.dev.bytes 6144 = 53 := by
  let crc := castagnoli
  obtain ⟨g₁, run, byte⟩ := tailVolume_retires
  have first : Gofs.firstBeyond tailVolume.map tailVolume.sb.blocksize (8 <<< 20) = some
      (tailEntry, 1) := rfl
  have last : Gofs.firstBeyond { tailVolume.map with
      entries := tailVolume.map.entries.set 1 (Gofs.retiredEntry tailEntry) }
      tailVolume.sb.blocksize (8 <<< 20) = none := rfl
  obtain ⟨done, shrunk⟩ := Gofs.shrink_retires tailVolume_regular first (by decide)
      tailVolume_header rfl run last
  exact ⟨g₁, done, shrunk, byte⟩

/-- The block that starts the first AG map copy was all zeros and is not any more; and a gap of no
bytes may start behind its limit. -/
theorem shrink_rewrites : (∃ g', @Gofs.shrink castagnoli (8 <<< 20) tailVolume = (.ok (), g') ∧
    tailVolume.Regular ∧
    g'.map.Has 0 3 ∧ (Gofs.readBlock (blkAddr 0 3) g').1 ≠
    (Gofs.readBlock (blkAddr 0 3) tailVolume).1) ∧
      ∃ x, tailVolume.map.findGap tailVolume.sb.blocksize 0 0 = some x ∧ 0 < x := by
  refine ⟨?_, ?_⟩
  · let crc := castagnoli
    obtain ⟨g₁, run, shrunk, byte⟩ := tailVolume_shrinks
    have first := shrunk.first
    have entry : tailVolume.map.entries[0]? = some
        ⟨AGF_PRESENT ||| AGF_IMMOVABLE, 4096, [⟨0, 4096, 0⟩]⟩ := rfl
    rw [entry] at first
    have has : g₁.map.Has 0 3 := ⟨_, first, by decide, by decide⟩
    refine ⟨_, run, tailVolume_regular, has, ?_⟩
    have block : g₁.sb.blocksize = 2048 := shrunk.blocksize
    have long : (4096 : Nat) * 2048 ≤ g₁.dev.fileLen := by
      have fits := shrunk.regular.inside _ (List.mem_of_getElem? first) rfl
          _ (List.mem_singleton_self _)
      rw [AgSegment.devEnd, block] at fits
      simpa using fits
    have found : g₁.map.resolve (blkAddr 0 3) g₁.sb.blocksize = some (0 + 3 * 2048) := by
      rw [block]
      exact AgMap.resolve_seg 2048 first rfl (by decide) (AgEntry.tiled_single _ _ _)
          (List.mem_singleton_self _)
        (Nat.zero_le _) (by decide)
    have found₀ : tailVolume.map.resolve (blkAddr 0 3) tailVolume.sb.blocksize = some
        (0 + 3 * 2048) := by decide
    have fits : 0 + 3 * 2048 + g₁.sb.blocksize ≤ 8 <<< 20 := by
      rw [block]
      decide
    rw [Gofs.readBlock_value (g := { g₁ with dev := g₁.dev.setLen (8 <<< 20) }) found fits,
      Gofs.readBlock_value found₀ (by decide)]
    intro same
    have byte₀ := congrFun (Except.ok.inj same) 0
    have bound : 0 < g₁.sb.blocksize := by
      rw [block]
      decide
    rw [clip_of_lt _ bound, clip_of_lt _ (by decide)] at byte₀
    have kept : clip (min g₁.dev.fileLen (8 <<< 20)) g₁.dev.bytes 6144 = g₁.dev.bytes 6144 :=
      clip_of_lt _ (by omega)
    have zero : tailVolume.dev.bytes 6144 = 0 := by decide
    have same' : clip (min g₁.dev.fileLen (8 <<< 20)) g₁.dev.bytes 6144 = tailVolume.dev.bytes
        6144 := byte₀
    rw [kept, byte, zero] at same'
    cases same'
  · have sorted : tailVolume.map.findGap 2048 0 0 = AgMap.gapFrom 0 0
        [(0, 8388608), (8388608, 10485760)] 0 :=
      congrArg (fun l => AgMap.gapFrom 0 0 l 0) (List.mergeSort_of_pairwise (by decide))
    exact ⟨10485760, sorted.trans rfl, by decide⟩

/-- Shrinking ends; what it leaves ends at the new size, the AGs it retired had no block in use, and
the blocks of the others, the volume's own records apart, read as before. A gap that is found is
free, and none is missed. -/
theorem Gofs.shrink_safe [Crc32c] (g : Gofs) (newSize : Nat) :
    (g.Filled → (Gofs.shrink newSize g).1 ≠ .error (.panic "shrink does not end")) ∧
    (∀ g', Gofs.shrink newSize g = (.ok (), g') →
      (∀ e ∈ g'.map.entries, e.present → ∀ s ∈ e.segs, s.devEnd g'.sb.blocksize ≤ newSize) ∧
      (g.Regular →
        (∀ a e e', g.map.entries[a]? = some e → g'.map.entries[a]? = some e' → e.present →
        ¬ e'.present →
          ∃ hdr, (Gofs.readAgHeader a g).1 = .ok hdr ∧ hdr.fullBlocks = 0 ∧
            ∀ (A : Ag) (T : Nat → Tree), A.Tally hdr T → ∀ c < A.cells,
            (T c).weigh fullWeight 0 = 0) ∧
        ∀ a l, g'.map.Has a l → g.map.Has a l ∧ (¬ g.VolumeRecord (blkAddr a l) →
          (Gofs.readBlock (blkAddr a l) g').1 = (Gofs.readBlock (blkAddr a l) g).1))) ∧
    ∀ bytes limit,
      (∀ x, g.map.findGap g.sb.blocksize bytes limit = some x →
        ((∀ s ∈ g.map.segs, s.devOffset % g.sb.blocksize = 0) → x % g.sb.blocksize = 0) ∧
        (0 < bytes → x + bytes ≤ limit) ∧ ∀ s ∈ g.map.segs, ¬ s.Meets g.sb.blocksize x bytes) ∧
      (g.map.findGap g.sb.blocksize bytes limit = none →
        ∀ x, x + bytes ≤ limit → ∃ s ∈ g.map.segs, s.Meets g.sb.blocksize x bytes) := by
  refine ⟨fun filled => ?_, fun g' run => ?_, fun bytes limit =>
      ⟨fun x found => ⟨fun aligned => ?_, fun some_bytes => ?_,
    fun s hs => ?_⟩, fun none' x low => ?_⟩⟩
  · have ends := Gofs.shrinkLoop_ends (g.map.entries.length + 1) filled
      (Nat.lt_succ_of_le (List.countP_le_length (p := reaches g.sb.blocksize newSize)))
    rw [shrink, bind_ok _ _ (get_run (s := g)), bind_run]
    rcases run : shrinkLoop newSize (g.map.entries.length + 1) g with ⟨e | a, g'⟩
    · rintro ⟨⟩
      exact wp_error ends run rfl
    · rintro ⟨⟩
  · obtain ⟨g₁, loop, rfl⟩ := shrink_done run
    have low := wp_ok (shrinkLoop_none _ g) loop
    refine ⟨fun e member present s hs => firstBeyond_none low member present hs, fun regular => ?_⟩
    obtain ⟨shrunk, -⟩ := wp_ok (shrinkLoop_shrunk _ regular) loop
    refine ⟨fun a e e' entry entry' present absent => ?_, fun a l has => ?_⟩
    · obtain ⟨-, hdr, read, empty⟩ := shrunk.empty a e e' entry entry' present absent
      refine ⟨hdr, read, empty, fun A T tally c hc => ?_⟩
      have none' := tally.full.symm.trans empty
      exact Finset.sum_eq_zero_iff.mp none' c (Finset.mem_range.mpr hc)
    · obtain ⟨e', entry', present, inside⟩ := has
      have bound := (List.getElem?_eq_some_iff.mp entry').1
      rw [shrunk.count] at bound
      obtain ⟨present₀, length, reads⟩ := shrunk.kept a _ e' (List.getElem?_eq_getElem bound) entry'
          present
      rw [length] at inside
      refine ⟨⟨_, List.getElem?_eq_getElem bound, present₀, inside⟩, fun out => ?_⟩
      rw [← reads l inside out]
      exact readBlock_setLen shrunk.regular (fun e member present s hs =>
          firstBeyond_none low member present hs)
        ⟨e', entry', present, by rw [length]; exact inside⟩
  · exact AgMap.findGap_aligned aligned found
  · exact AgMap.gapFrom_limit some_bytes found
  · exact AgMap.findGap_apart found hs
  · exact AgMap.findGap_complete none' low

/-- The empty AG is gone, and what AG 0 holds besides the records is as before. -/
theorem shrink_safe_tail : ∃ g', @Gofs.shrink castagnoli (8 <<< 20) tailVolume = (.ok (), g') ∧
    (∀ e ∈ g'.map.entries, e.present → ∀ s ∈ e.segs, s.devEnd g'.sb.blocksize ≤ 8 <<< 20) ∧
    ∀ a l, g'.map.Has a l → ¬ tailVolume.VolumeRecord (blkAddr a l) →
      (Gofs.readBlock (blkAddr a l) g').1 = (Gofs.readBlock (blkAddr a l) tailVolume).1 := by
  let crc := castagnoli
  obtain ⟨g₁, run, -⟩ := tailVolume_shrinks
  obtain ⟨-, safe, -⟩ := Gofs.shrink_safe tailVolume (8 <<< 20)
  obtain ⟨low, contents⟩ := safe _ run
  exact ⟨_, run, low, fun a l has => ((contents tailVolume_regular).2 a l has).2⟩

end FiveFs
