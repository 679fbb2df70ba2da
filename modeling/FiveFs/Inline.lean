import FiveFs.Inserted
import FiveFs.RoundTrip

/-! `extent_ensure` over the inline extents of a file: holes of the range are filled by runs that
join the extent in front of them or are extents of their own. -/

namespace FiveFs

open Buffer Prog Radix

/-- The extents map file block `f` to `b`. -/
def MapsInline (es : List Extent) (f b : Nat) : Prop := ∃ e ∈ es,
    Pairs e.fileBlock e.blk e.blocks f b

def usesInline (es : List Extent) (b : Nat) : Nat :=
  es.countP fun e => decide (e.blk ≤ b ∧ b < e.blk + e.blocks)

/-- The extents of a file, in any order: they map no file block twice, own their blocks once, and
the allocator keeps these with the rest of `taken`. -/
structure Listed (Held : Work → (Nat → Prop) → Prop) (taken : Nat → Prop) (w : Work)
    (es : List Extent) : Prop where
  sound : ∀ e ∈ es, 0 < e.blocks ∧ RunFits e.blocks e.blk ∧ e.fileBlock + e.blocks ≤ 2 ^ 53
  apart : es.Pairwise Extent.Apart
  once : ∀ b, usesInline es b ≤ 1
  owned : ∀ b, 0 < usesInline es b → taken b
  held : Held w taken

section Lists

variable {es es' : List Extent} {e : Extent} {f b : Nat}

theorem mapsInline_perm (same : es.Perm es') : MapsInline es f b ↔ MapsInline es' f b :=
  exists_congr fun _ => and_congr_left fun _ => same.mem_iff

theorem usesInline_perm (same : es.Perm es') (b : Nat) : usesInline es b = usesInline es' b :=
  same.countP_eq _

theorem usesInline_cons (e : Extent) (es : List Extent) (b : Nat) :
    usesInline (e :: es) b = usesInline es b + if e.blk ≤ b ∧
    b < e.blk + e.blocks then 1 else 0 := by
  rw [usesInline, List.countP_cons]
  simp only [decide_eq_true_eq]
  rfl

theorem usesInline_of_mem (member : e ∈ es) (low : e.blk ≤ b) (high : b < e.blk + e.blocks) :
    0 < usesInline es b :=
  List.countP_pos_iff.mpr ⟨e, member, decide_eq_true ⟨low, high⟩⟩

theorem mem_of_usesInline (used : 0 < usesInline es b) : ∃ e ∈ es, e.blk ≤ b ∧
    b < e.blk + e.blocks := by
  obtain ⟨e, member, inside⟩ := List.countP_pos_iff.mp used
  exact ⟨e, member, of_decide_eq_true inside⟩

theorem Extent.Apart.symm {e e' : Extent} (apart : e.Apart e') : e'.Apart e := Or.symm apart

instance : Std.Symm Extent.Apart := ⟨fun _ _ => Extent.Apart.symm⟩

theorem extentsParse_clip (p : Bytes) : extentsParse (clip INODE_PAYLOAD p) = extentsParse p := by
  have record : EXTENT_REC = 20 := rfl
  have payload : INODE_PAYLOAD = 128 := rfl
  have scan : ∀ n off, off + n * EXTENT_REC ≤ INODE_PAYLOAD →
      extentsParseFrom (clip INODE_PAYLOAD p) n off = extentsParseFrom p n off := by
    intro n
    induction n with
    | zero => exact fun _ _ => rfl
    | succ n ih =>
        intro off room
        rw [record] at room
        have field : ∀ k m, k + m ≤ 20 → getBE (clip INODE_PAYLOAD p) (off + k) m = getBE p
            (off + k) m :=
          fun k m inside => getBE_clip _ (by omega)
        have count : getU32 (clip INODE_PAYLOAD p) (off + 16) = getU32 p (off + 16) :=
            field 16 4 (by decide)
        have block : getU64 (clip INODE_PAYLOAD p) off = getU64 p off := field 0 8 (by decide)
        have place : getU64 (clip INODE_PAYLOAD p) (off + 8) = getU64 p (off + 8) :=
            field 8 8 (by decide)
        rw [extentsParseFrom, extentsParseFrom, ih _ (by rw [record]; omega), count, block, place]
  exact scan _ _ (by decide)

end Lists

section Growing

variable {Held : Work → (Nat → Prop) → Prop} {taken : Nat → Prop} {w w' : Work}
    {es es' : List Extent}
  {pos blk want : Nat}

theorem Listed.perm (listed : Listed Held taken w es) (same : es.Perm es') :
    Listed Held taken w es' where
  sound e member := listed.sound e (same.mem_iff.mpr member)
  apart := (same.pairwise_iff fun apart => apart.symm).mp listed.apart
  once b := usesInline_perm same b ▸ listed.once b
  owned b used := listed.owned b (by rwa [usesInline_perm same])
  held := listed.held

/-- The run `blk` is granted for the hole at `pos`, and no other extent than the new one touches the
hole. -/
structure Granting (Held : Work → (Nat → Prop) → Prop) (taken : Nat → Prop) (w' : Work)
    (es : List Extent)
    (pos blk want : Nat) : Prop where
  some : 0 < want
  fits : RunFits want blk
  short : pos + want ≤ 2 ^ 53
  free : ∀ b, blk ≤ b → b < blk + want → ¬ taken b
  hole : ∀ e ∈ es, e.fileBlock + e.blocks ≤ pos ∨ pos + want ≤ e.fileBlock
  held : Held w' fun b => taken b ∨ (blk ≤ b ∧ b < blk + want)

/-- What the extents are after a hole was filled. -/
structure Filled (Held : Work → (Nat → Prop) → Prop) (taken : Nat → Prop) (es : List Extent)
    (pos blk want : Nat)
    (w' : Work) (es' : List Extent) : Prop where
  listed : Listed Held (fun b => taken b ∨ 0 < usesInline es' b) w' es'
  adds : Adds taken (Pairs pos blk want) (MapsInline es) (MapsInline es') (usesInline es)
      (usesInline es')

theorem Filled.of_uses {A : Allocator} {Refuses : Err → Work → Prop} [Crc32c]
    (grants : Grants A Refuses Held) (listed : Listed Held taken w es)
    (granting : Granting Held taken w' es pos blk want)
    (sound : ∀ e ∈ es', 0 < e.blocks ∧ RunFits e.blocks e.blk ∧ e.fileBlock + e.blocks ≤ 2 ^ 53)
    (apart : es'.Pairwise Extent.Apart)
    (maps : ∀ f b, MapsInline es' f b ↔ MapsInline es f b ∨ Pairs pos blk want f b)
    (more : ∀ b, usesInline es' b = usesInline es b + if blk ≤ b ∧ b < blk + want then 1 else 0) :
    Filled Held taken es pos blk want w' es' := by
  have adds : Adds taken (Pairs pos blk want) (MapsInline es) (MapsInline es') (usesInline es)
      (usesInline es') :=
    Adds.of_run maps more granting.free listed.owned
  refine ⟨⟨sound, apart, adds.uses_le listed.once, fun b => Or.inr, ?_⟩, adds⟩
  refine grants.mono granting.held fun b either => either.elim Or.inl fun used => ?_
  by_cases inside : blk ≤ b ∧ b < blk + want
  · exact Or.inr inside
  · rw [more b, if_neg inside] at used
    exact Or.inl (listed.owned b used)

theorem Granting.perm (granting : Granting Held taken w' es pos blk want) (same : es.Perm es') :
    Granting Held taken w' es' pos blk want :=
  { granting with hole := fun e member => granting.hole e (same.mem_iff.mpr member) }

theorem Filled.perm {es₁ : List Extent} (filled : Filled Held taken es pos blk want w' es₁)
    (old : es.Perm es') {es₂ : List Extent}
    (new : es₁.Perm es₂) : Filled Held taken es' pos blk want w' es₂ := by
  have uses := funext (usesInline_perm new)
  have maps : MapsInline es₁ = MapsInline es₂ :=
      funext fun f => funext fun b => propext (mapsInline_perm new)
  have uses' := funext (usesInline_perm old)
  have maps' : MapsInline es = MapsInline es' :=
      funext fun f => funext fun b => propext (mapsInline_perm old)
  refine ⟨?_, ?_⟩
  · rw [← uses]
    exact filled.listed.perm new
  · rw [← uses, ← maps, ← uses', ← maps']
    exact filled.adds

theorem Listed.push {A : Allocator} {Refuses : Err → Work → Prop} [Crc32c]
    (grants : Grants A Refuses Held) (listed : Listed Held taken w es)
    (granting : Granting Held taken w' es pos blk want) :
    Filled Held taken es pos blk want w' (⟨pos, blk, want⟩ :: es) := by
  refine Filled.of_uses grants listed granting ?_ ?_ (fun f b => ?_) (usesInline_cons _ _)
  · intro e member
    rcases List.mem_cons.mp member with rfl | old
    · exact ⟨granting.some, granting.fits, granting.short⟩
    · exact listed.sound e old
  · exact List.pairwise_cons.mpr ⟨fun e member => (granting.hole e member).symm, listed.apart⟩
  · simp [MapsInline, or_comm]

theorem Listed.join {A : Allocator} {Refuses : Err → Work → Prop} [Crc32c] {e : Extent}
    {rest : List Extent} (grants : Grants A Refuses Held)
    (listed : Listed Held taken w (e :: rest)) (granting : Granting Held taken w' (e :: rest) pos
    blk want)
    (meets : e.fileBlock + e.blocks = pos) (follows : e.blk + e.blocks = blk) :
    Filled Held taken (e :: rest) pos blk want w'
    ({ e with blocks := e.blocks + want } :: rest) := by
  obtain ⟨first, later⟩ := List.pairwise_cons.mp listed.apart
  obtain ⟨some, ⟨place, room⟩, _⟩ := listed.sound e List.mem_cons_self
  have some' := granting.some
  have short := granting.short
  obtain ⟨_, room'⟩ := granting.fits
  refine Filled.of_uses grants listed granting ?_ ?_ (fun f b => ?_) fun b => ?_
  · intro e' member
    rcases List.mem_cons.mp member with rfl | old
    · exact ⟨by dsimp only; omega, ⟨place, by dsimp only; omega⟩, by dsimp only; omega⟩
    · exact listed.sound e' (List.mem_cons_of_mem _ old)
  · refine List.pairwise_cons.mpr ⟨fun e' member => ?_, later⟩
    have away := first e' member
    have beside := granting.hole e' (List.mem_cons_of_mem _ member)
    have some := (listed.sound e' (List.mem_cons_of_mem _ member)).1
    simp only [Extent.Apart] at away ⊢
    omega
  · have longer : Pairs e.fileBlock e.blk (e.blocks + want) f b ↔
        Pairs e.fileBlock e.blk e.blocks f b ∨ Pairs pos blk want f b := by
      simp only [Pairs]
      omega
    simp only [MapsInline, List.mem_cons, exists_eq_or_imp, longer]
    exact or_right_comm
  · rw [usesInline_cons, usesInline_cons]
    dsimp only
    split <;> split <;> split <;> omega

end Growing

section Loop

variable {es : List Extent} {pos blk want limit : Nat}

theorem extendRun_run (pos : Nat) (run : RunFits want blk)
    (sound : ∀ e ∈ es, RunFits e.blocks e.blk) :
    ∃ found, Allocator.extendRun pos blk want es = .ok found ∧ ∀ es', found = some es' →
      ∃ e rest, es.Perm (e :: rest) ∧ es'.Perm ({ e with blocks := e.blocks + want } :: rest) ∧
        e.fileBlock + e.blocks = pos ∧ e.blk + e.blocks = blk := by
  obtain ⟨_, room⟩ := run
  have cut : want % 2 ^ 32 = want := Nat.mod_eq_of_lt (by omega)
  induction es with
  | nil => exact ⟨none, rfl, fun es' some => (by cases some)⟩
  | cons e rest ih =>
      obtain ⟨_, room'⟩ := sound e List.mem_cons_self
      rw [Allocator.extendRun, cut]
      by_cases here : e.fileBlock + e.blocks = pos ∧ e.blk + e.blocks = blk
      · rw [if_pos here, if_pos (by omega)]
        refine ⟨_, rfl, fun es' same => ?_⟩
        obtain rfl := Option.some.inj same
        exact ⟨e, rest, .refl _, .refl _, here.1, here.2⟩
      · obtain ⟨found, later, joins⟩ := ih fun e' member => sound e' (List.mem_cons_of_mem _ member)
        rw [if_neg here, later]
        refine ⟨found.map (e :: ·), rfl, fun es' same => ?_⟩
        obtain ⟨rest', some, rfl⟩ := Option.map_eq_some_iff.mp same
        obtain ⟨e', others, old, new, meets, follows⟩ := joins rest' some
        exact ⟨e', e :: others, (old.cons e).trans (.swap _ _ _), (new.cons e).trans (.swap _ _ _),
            meets, follows⟩

theorem next_spec (es : List Extent) (more : pos < limit) :
    ∃ next, (((es.filter fun e => decide (e.fileBlock > pos)).map Extent.fileBlock).min?).getD
    limit = next ∧ pos < next ∧
      ∀ e ∈ es, pos < e.fileBlock → min next limit ≤ e.fileBlock := by
  refine ⟨_, rfl, ?_⟩
  cases least : ((es.filter fun e => decide (e.fileBlock > pos)).map Extent.fileBlock).min? with
  | none =>
      rw [List.min?_eq_none_iff, List.map_eq_nil_iff, List.filter_eq_nil_iff] at least
      exact ⟨more, fun e member later => absurd (decide_eq_true later) (least e member)⟩
  | some next =>
      obtain ⟨member, below⟩ := List.min?_eq_some_iff.mp least
      obtain ⟨e, inside, rfl⟩ := List.mem_map.mp member
      refine ⟨of_decide_eq_true (List.mem_filter.mp inside).2, fun e' member' later => ?_⟩
      have least := below _ (List.mem_map_of_mem (List.mem_filter.mpr
          ⟨member', decide_eq_true later⟩))
      exact Nat.le_trans (Nat.min_le_left _ _) least

/-- What the loop of `extent_ensure` leaves: the range is mapped up to `mid`, and to its end unless
the extents have to go to a tree. -/
structure Swept (Held : Work → (Nat → Prop) → Prop) (taken : Nat → Prop) (w : Work)
    (es : List Extent) (pos limit : Nat)
    (fresh : List (Nat × Nat)) (out : List Extent × List (Nat × Nat) × Bool) (w' : Work)
    (R : Nat → Nat → Prop) (mid : Nat)
    [Crc32c] : Prop where
  listed : Listed Held (fun b => taken b ∨ 0 < usesInline out.1 b) w' out.1
  adds : Adds taken R (MapsInline es) (MapsInline out.1) (usesInline es) (usesInline out.1)
  frame : Untouched taken w w'
  low : min pos limit ≤ mid
  high : mid ≤ limit
  whole : out.2.2 = false → mid = limit
  ensured : Ensured taken (MapsInline es) (MapsInline out.1) R (min pos limit) mid fresh out.2.1

variable [Crc32c] {Held : Work → (Nat → Prop) → Prop} {A : Allocator} {Refuses : Err → Work → Prop}

theorem Swept.stop (grants : Grants A Refuses Held) {taken : Nat → Prop} {w w' : Work}
    (listed : Listed Held taken w es)
    (held : Held w' taken) (same : Untouched taken w w') {flag : Bool}
    (past : flag = false → limit ≤ pos)
    (fresh : List (Nat × Nat)) :
    Swept Held taken w es pos limit fresh (es, fresh, flag) w' (fun _ _ => False) (min pos limit)
    where
  listed := { listed with
    owned := fun _ => Or.inr
    held := grants.mono held fun b either => either.elim id (listed.owned b) }
  adds := Adds.refl listed.owned
  frame := same
  low := Nat.le_refl _
  high := Nat.min_le_right _ _
  whole done := Nat.min_eq_right (past done)
  ensured := Ensured.start _ _ _ _ _

theorem Swept.after (grants : Grants A Refuses Held) {taken : Nat → Prop} {w w₁ w₂ : Work}
    {es₁ : List Extent} {next mid : Nat} {fresh : List (Nat × Nat)}
    {out : List Extent × List (Nat × Nat) × Bool} {R : Nat → Nat → Prop}
    (same : Untouched taken w w₁)
    (filled : Filled Held taken es pos blk want w₁ es₁) (some : 0 < want)
    (free : ∀ b, blk ≤ b → b < blk + want → ¬ taken b)
    (unmapped : ∀ f b, pos ≤ f → f < pos + want → ¬ MapsInline es f b) (stop : pos + want = next)
    (inside : next ≤ limit)
    (swept : Swept Held (fun b => taken b ∨ 0 < usesInline es₁ b) w₁ es₁ next limit
    (fresh ++ [(pos, want)]) out w₂ R mid) :
    Swept Held taken w es pos limit fresh out w₂ (fun f b => Pairs pos blk want f b ∨ R f b) mid
    where
  listed := { swept.listed with
    owned := fun _ => Or.inr
    held := grants.mono swept.listed.held fun _ => Or.imp_left Or.inl }
  adds := filled.adds.trans swept.adds
  frame := same.trans (swept.frame.mono fun b => Or.inl)
  low := by have low := swept.low; omega
  high := swept.high
  whole := swept.whole
  ensured := by
    have low := swept.low
    have first : Ensured taken (MapsInline es) (MapsInline es₁) (Pairs pos blk want) (min pos limit)
        (min next limit) fresh
        (fresh ++ [(pos, want)]) := by
      refine ⟨fun f b pair => ?_, fun f start stop => ?_, fun f => ?_⟩
      · obtain ⟨start, last, rfl⟩ := pair
        exact ⟨by omega, by omega, free _ (by omega) (by omega), fun b' => unmapped f b' start last⟩
      · exact ⟨blk + (f - pos), (filled.adds.maps f _).mpr (Or.inr ⟨by omega, by omega, rfl⟩)⟩
      · rw [within_append]
        refine or_congr Iff.rfl ⟨fun range => ⟨_, range.1, range.2, rfl⟩, ?_⟩
        rintro ⟨b, start, last, _⟩
        exact ⟨start, last⟩
    exact Ensured.trans filled.adds.maps swept.adds.maps (fun _ => Or.inl) (by omega) low first
        swept.ensured

/-- Every round skips an extent, or fills the hole in front of the next one. -/
theorem extentLoop_wp (grants : Grants A Refuses Held) (short : limit ≤ 2 ^ 53) :
    ∀ fuel {pos w taken es fresh}, limit - pos ≤ fuel → Listed Held taken w es →
      wp (A.extentLoop limit fuel pos es fresh) (fun out w' => ∃ R mid,
      Swept Held taken w es pos limit fresh out w' R mid)
        Refuses w := by
  intro fuel
  induction fuel with
  | zero =>
      intro pos w taken es fresh enough listed
      exact ⟨_, _, Swept.stop grants listed listed.held (.refl _ w) (fun _ => by omega) fresh⟩
  | succ fuel ih =>
      intro pos w taken es fresh enough listed
      rw [Allocator.extentLoop, wp_ite]
      by_cases more : pos < limit
      · rw [if_pos more]
        cases covering : es.find? fun e => decide (pos ≥ e.fileBlock ∧
            pos < e.fileBlock + e.blocks) with
        | some e =>
            have inside : pos ≥ e.fileBlock ∧ pos < e.fileBlock + e.blocks := by
              simpa using List.find?_some covering
            have member := List.mem_of_find?_eq_some covering
            dsimp only
            have behind : limit - (e.fileBlock + e.blocks) ≤ fuel := by omega
            refine wp_mono (ih behind listed) ?_ fun _ _ => id
            rintro out w' ⟨R, mid, swept⟩
            have low := swept.low
            refine ⟨R, mid, { swept with low := by omega, ensured := ?_ }⟩
            refine { swept.ensured with new := fun f b pair => ?_, full := fun f start stop => ?_ }
            · obtain ⟨start, rest⟩ := swept.ensured.new f b pair
              exact ⟨by omega, rest⟩
            · by_cases before : f < e.fileBlock + e.blocks
              · exact ⟨_, (swept.adds.maps f _).mpr (Or.inl ⟨e, member, by omega, before, rfl⟩)⟩
              · exact swept.ensured.full f (by omega) stop
        | none =>
            obtain ⟨next, isNext, later, bound⟩ := next_spec es more
            have uncovered : ∀ e ∈ es, ¬ (pos ≥ e.fileBlock ∧ pos < e.fileBlock + e.blocks) :=
              fun e member inside => (List.find?_eq_none.mp covering e member)
              (decide_eq_true inside)
            obtain ⟨stop, isStop⟩ : ∃ stop, stop = min next limit := ⟨_, rfl⟩
            have hole : ∀ e ∈ es, e.fileBlock + e.blocks ≤ pos ∨
                pos + (stop - pos) ≤ e.fileBlock := by
              intro e member
              have away := uncovered e member
              have behind := bound e member
              omega
            dsimp only
            rw [isNext, ← isStop, wp_bind, wp_attempt]
            refine wp_mono (grants.alloc listed.held (show 0 < stop - pos by omega)) ?_ ?_
            · rintro blk w₁ ⟨fits, free, held, same, _⟩
              have granting : Granting Held taken w₁ es pos blk (stop - pos) :=
                ⟨by omega, fits, by omega, free, hole, held⟩
              have cut : (stop - pos) % 2 ^ 32 = stop - pos :=
                  Nat.mod_eq_of_lt (by have := fits.2; omega)
              have unmapped : ∀ f b, pos ≤ f → f < pos + (stop - pos) → ¬ MapsInline es f b := by
                rintro f b start last ⟨e, member, first, last', _⟩
                have away := hole e member
                omega
              have goes : ∀ {es₁ : List Extent}, Filled Held taken es pos blk (stop - pos) w₁ es₁ →
                  wp (A.extentLoop limit fuel stop es₁ (fresh ++ [(pos, stop - pos)]))
                    (fun out w' => ∃ R mid, Swept Held taken w es pos limit fresh out w' R mid)
                    Refuses w₁ := by
                intro es₁ filled
                refine wp_mono (ih (by omega) filled.listed) ?_ fun _ _ => id
                rintro out w' ⟨R, mid, swept⟩
                exact ⟨_, mid, swept.after grants same filled (by omega) free unmapped (by omega)
                    (by omega)⟩
              obtain ⟨found, run, joins⟩ := extendRun_run pos fits fun e member =>
                  (listed.sound e member).2.1
              dsimp only
              rw [wp_bind, wp_ofExcept, run]
              cases found with
              | none =>
                  rw [cut]
                  exact goes ((listed.push grants granting).perm (.refl _)
                      (List.perm_append_singleton _ _).symm)
              | some merged =>
                  obtain ⟨e, rest, old, new, meets, follows⟩ := joins merged rfl
                  exact goes (((listed.perm old).join grants (granting.perm old) meets follows).perm
                      old.symm new.symm)
            · rintro e w₁ ⟨refuses, keeps⟩
              cases e with
              | panic m => exact refuses
              | bail m =>
                  obtain ⟨held, same⟩ := keeps ⟨m, rfl⟩
                  show wp (if es = [] then bail m else _) _ _ w₁
                  rw [wp_ite]
                  by_cases none : es = []
                  · rw [if_pos none]
                    exact refuses
                  · rw [if_neg none]
                    exact ⟨_, _, Swept.stop grants listed held same (fun done => by cases done)
                        fresh⟩
      · rw [if_neg more]
        exact ⟨_, _, Swept.stop grants listed listed.held (.refl _ w) (fun _ => by omega) fresh⟩

end Loop

end FiveFs
