import FiveFs.Listing

/-! Directories with a single bucket: a call with room for its entry succeeds. -/

namespace FiveFs

open Buffer Prog

/-- Every allocation finds a cleared block. -/
def roomy : Space := ⟨fun _ _ => .ok ⟨false, zeros, 1, zeros⟩, fun _ => .ok ()⟩

theorem ensure_roomy {d : Dir} {fb : Nat} (hole : d.blocks fb = none) :
    Dir.dirBlockEnsure roomy fb d =
      (.ok fb, { inode := { d.inode with format := FMT_EXTENT, payload := zeros, nblocks := 1 }
                 blocks := Function.update d.blocks fb (some zeros) }) := by
  rw [Dir.dirBlockEnsure, bind_ok _ _ get_run, hole]
  rfl

section Keys

variable {hash : String → UInt64} {es : List NamedEntry}

theorem keyed_match (hash : String → UInt64) (name : String) :
    (fun e : HEntry => e.hash == (hash name).toNat && e.name == name) ∘ NamedEntry.keyed hash =
      fun e => e.name == name := by
  funext e
  show ((hash e.name).toNat == (hash name).toNat && e.name == name) = (e.name == name)
  by_cases same : e.name = name
  · rw [same, beq_self_eq_true, beq_self_eq_true, Bool.and_self]
  · rw [beq_false_of_ne same, Bool.and_false]

theorem find_keyed (name : String) :
    (es.map (NamedEntry.keyed hash)).find? (fun e =>
    e.hash == (hash name).toNat && e.name == name) =
      (es.find? fun e => e.name == name).map (NamedEntry.keyed hash) := by
  rw [List.find?_map, keyed_match]

theorem eraseP_keyed (name : String) :
    (es.map (NamedEntry.keyed hash)).eraseP (fun e =>
    e.hash == (hash name).toNat && e.name == name) =
      (es.eraseP fun e => e.name == name).map (NamedEntry.keyed hash) := by
  rw [List.eraseP_map, keyed_match]

theorem keyed_proper (proper : ∀ e ∈ es, e.Proper) : ∀ e ∈ es.map (NamedEntry.keyed hash),
    e.Proper := by
  intro e member
  obtain ⟨ne, listed, rfl⟩ := List.mem_map.mp member
  exact (proper ne listed).keyed hash

end Keys

variable [Crc32c] {bs : Nat} {hash : String → UInt64} {d : Dir} {es : List NamedEntry}

/-- A hashed directory with all its entries in one bucket, in the order in which they came. -/
structure OneBucket (bs : Nat) (hash : String → UInt64) (es : List NamedEntry) (d : Dir) :
    Prop where
  isDir : d.inode.isDir = true
  format : HashFormat d.inode.format
  header : Dir.headerAt bs (d.blocks 0) = .ok ⟨0, 1, [0], 0, []⟩
  bucket : Dir.bucketAt bs 0 (d.blocks 1) = .ok ⟨es.map (NamedEntry.keyed hash), 0, 1⟩
  proper : ∀ e ∈ es, e.Proper

namespace Dir

theorem bucketWrite_generation {blk ld : Nat} {entries : List HEntry} {d d' : Dir}
    (run : bucketWrite bs blk ld entries d = (.ok (), d')) :
    generation blk d' = generation blk d + 1 := by
  refine wp_ok (Q := fun _ d' => generation blk d' = generation blk d + 1) (E := fun _ _ => True) ?_
      run
  rw [bucketWrite, wp_bind, wp_ofExcept]
  cases bucketBuild bs ld entries with
  | error e => trivial
  | ok buf =>
      dsimp only
      rw [wp_bind, wp_get, wp_ite]
      split
      · trivial
      · rename_i young
        show generation blk { d with blocks := _ } = _
        rw [generation]
        dsimp only
        rw [Function.update_self, Option.elim_some, getU64, putU32,
          getBE_putBE_disjoint _ (by decide), putU64, getBE_putBE]
        exact Nat.mod_eq_of_lt (Nat.lt_of_not_le young)

end Dir

namespace OneBucket

theorem dhdrRead (one : OneBucket bs hash es d) :
    Dir.dhdrRead bs d = (.ok ⟨0, 1, [0], 0, []⟩, d) := by
  rw [Dir.dhdrRead_eq, one.header]

theorem bucketRead (one : OneBucket bs hash es d) :
    Dir.bucketRead bs 0 d = (.ok ⟨es.map (NamedEntry.keyed hash), 0, 1⟩, d) := by
  rw [Dir.bucketRead_eq, one.bucket]

omit [Crc32c] in
theorem tableAt (h : Nat) (d : Dir) :
    Dir.tableAt ⟨0, 1, [0], 0, []⟩ (bucketIndex h 0) d = (.ok 0, d) := rfl

theorem dirFind (one : OneBucket bs hash es d) (name : String) :
    Dir.dirFind bs hash name d = (.ok (es.find? fun e => e.name == name), d) := by
  have fmt : d.inode.format = FMT_EXTENT ∨ d.inode.format = FMT_TREE := one.format
  rw [Dir.dirFind, bind_ok _ _ get_run, one.isDir, if_neg (by decide), if_neg one.format.not_empty,
    if_neg one.format.not_embed, if_pos fmt, bind_ok _ _ one.dhdrRead, bind_ok _ _ (tableAt _ d),
    bind_ok _ _ one.bucketRead, find_keyed, Option.map_map, entry_keyed, Option.map_id]
  rfl

theorem dirList (one : OneBucket bs hash es d) : Dir.dirList bs d = (.ok (sortNames es), d) := by
  have fmt : d.inode.format = FMT_EXTENT ∨ d.inode.format = FMT_TREE := one.format
  have buckets : Dir.bucketsList bs [0] d = (.ok es, d) := by
    rw [Dir.bucketsList, bind_ok _ _ one.bucketRead, Dir.bucketsList, bind_ok _ _ (pure_run _),
      List.append_nil, List.map_map, entry_keyed, List.map_id]
    rfl
  rw [Dir.dirList, bind_ok _ _ get_run, one.isDir, if_neg (by decide), if_neg one.format.not_empty,
    if_neg one.format.not_embed, if_pos fmt, bind_ok _ _ one.dhdrRead]
  exact (bind_ok _ _ buckets).trans rfl

theorem rewrite (one : OneBucket bs hash es d) (takes : TakesBlocksize bs) {es' : List NamedEntry}
    (proper : ∀ e ∈ es', e.Proper) (fits : BK_HDR + bucketSize
    (es'.map (NamedEntry.keyed hash)) ≤ bs)
    (young : Dir.generation 1 d + 1 < 2 ^ 64) :
    ∃ d', Dir.bucketWrite bs 1 0 (es'.map (NamedEntry.keyed hash)) d = (.ok (), d') ∧
      OneBucket bs hash es' d' ∧ Dir.generation 1 d' = Dir.generation 1 d + 1 := by
  obtain ⟨d', run, wrote, read⟩ :=
    Dir.bucketWrite_run takes _ (keyed_proper proper) (by decide : 0 < 2 ^ 8) fits
    (show Dir.generation (1 + 0) d + 1 < 2 ^ 64 from young)
  refine ⟨d', run, ⟨?_, ?_, ?_, read, proper⟩, Dir.bucketWrite_generation run⟩
  · rw [wrote.inode]
    exact one.isDir
  · rw [wrote.inode]
    exact one.format
  · rw [wrote.others 0 (by decide)]
    exact one.header

theorem store (one : OneBucket bs hash es d) (takes : TakesBlocksize bs) (space : Space)
    (fuel : Nat)
    {e : NamedEntry} (proper : e.Proper)
    (fits : BK_HDR + bucketSize ((es ++ [e]).map (NamedEntry.keyed hash)) ≤ bs)
    (young : Dir.generation 1 d + 1 < 2 ^ 64) :
    ∃ d', Dir.hashedInsert bs hash space (fuel + 1) e d = (.ok (), d') ∧
      OneBucket bs hash (es ++ [e]) d' ∧ Dir.generation 1 d' = Dir.generation 1 d + 1 := by
  have all : ∀ e' ∈ es ++ [e], e'.Proper := by
    intro e' member
    rcases List.mem_append.mp member with old | new
    · exact one.proper e' old
    · rw [List.mem_singleton.mp new]
      exact proper
  obtain ⟨d', run, next, count⟩ := one.rewrite takes all fits young
  have room : bucketFits bs (es.map (NamedEntry.keyed hash)) (e.keyed hash) = true := by
    refine decide_eq_true ?_
    rw [List.map_append, bucketSize_append, List.map_singleton, bucketSize_cons] at fits
    simp only [bucketSize, List.map_nil, List.sum_nil] at fits
    omega
  rw [List.map_append, List.map_singleton] at run
  have round : Dir.insertRound bs space (e.keyed hash) d = (.ok (some ()), d') := by
    rw [Dir.insertRound, bind_ok _ _ one.dhdrRead, bind_ok _ _ (tableAt _ d),
      bind_ok _ _ one.bucketRead, if_pos room, bind_ok _ _ run]
    rfl
  refine ⟨d', ?_, next, count⟩
  show loop (Dir.insertRound bs space (e.keyed hash)) (fuel + 1) d = _
  rw [loop, bind_ok _ _ round]
  rfl

theorem insertAll (one : OneBucket bs hash es d) (takes : TakesBlocksize bs) (space : Space)
    (fuel : Nat) {new : List NamedEntry} (proper : ∀ e ∈ new, e.Proper)
    (fits : BK_HDR + bucketSize ((es ++ new).map (NamedEntry.keyed hash)) ≤ bs)
    (young : Dir.generation 1 d + new.length < 2 ^ 64) :
    ∃ d', Dir.insertAll bs hash space (fuel + 1) new d = (.ok (), d') ∧
      OneBucket bs hash (es ++ new) d' ∧
      Dir.generation 1 d' = Dir.generation 1 d + new.length := by
  induction new generalizing es d with
  | nil => exact ⟨d, rfl, by rwa [List.append_nil], rfl⟩
  | cons e rest ih =>
      rw [List.length_cons] at young ⊢
      rw [List.append_cons] at fits ⊢
      have part : BK_HDR + bucketSize ((es ++ [e]).map (NamedEntry.keyed hash)) ≤ bs := by
        rw [List.map_append, bucketSize_append] at fits
        omega
      obtain ⟨d₁, run₁, one₁, count₁⟩ :=
        one.store takes space fuel (proper e List.mem_cons_self) part (by omega)
      obtain ⟨d₂, run₂, one₂, count₂⟩ :=
        ih one₁ (fun e' member => proper e' (List.mem_cons_of_mem _ member)) fits (by omega)
      refine ⟨d₂, ?_, one₂, by omega⟩
      rw [Dir.insertAll, bind_ok _ _ run₁, run₂]

theorem insertCall (one : OneBucket bs hash es d) (takes : TakesBlocksize bs) (space : Space)
    (fuel : Nat) {e : NamedEntry} (proper : e.Proper) (new : ∀ e' ∈ es, e'.name ≠ e.name)
    (fits : BK_HDR + bucketSize ((es ++ [e]).map (NamedEntry.keyed hash)) ≤ bs)
    (young : Dir.generation 1 d + 1 < 2 ^ 64) (again : Prog Dir Unit) :
    ∃ d', Dir.dirInsertCall bs hash space (fuel + 1) e again d = (.ok (), d') ∧
      OneBucket bs hash (es ++ [e]) d' ∧ Dir.generation 1 d' = Dir.generation 1 d + 1 := by
  obtain ⟨d', run, next, count⟩ := one.store takes space fuel proper fits young
  have absent : es.find? (fun e' => e'.name == e.name) = none := by
    apply List.find?_eq_none.mpr
    intro e' member
    simpa using new e' member
  have other : ¬ (d.inode.format = FMT_EMPTY ∨ d.inode.format = FMT_EMBED) :=
    not_or.mpr ⟨one.format.not_empty, one.format.not_embed⟩
  have fmt : d.inode.format = FMT_EXTENT ∨ d.inode.format = FMT_TREE := one.format
  refine ⟨d', ?_, next, count⟩
  rw [Dir.dirInsertCall, bind_ok _ _ (one.dirFind e.name), absent, if_neg (by decide),
    bind_ok _ _ get_run, if_neg other, if_pos fmt, run]

theorem remove (one : OneBucket bs hash es d) (takes : TakesBlocksize bs) (space : Space)
    (fuel : Nat)
    (e : NamedEntry) (name : String) (found : es.find? (fun e => e.name == name) = some e)
    (left : es.eraseP (fun e => e.name == name) ≠ [])
    (fits : BK_HDR + bucketSize ((es.eraseP fun e => e.name == name).map (NamedEntry.keyed hash)) ≤
    bs)
    (young : Dir.generation 1 d + 1 < 2 ^ 64) :
    ∃ d', Dir.dirRemove bs hash space (fuel + 1) name d = (.ok e, d') ∧
      OneBucket bs hash (es.eraseP fun e => e.name == name) d' ∧
      Dir.generation 1 d' = Dir.generation 1 d + 1 := by
  obtain ⟨d', run, next, count⟩ :=
    one.rewrite takes (fun e' member => one.proper e' (List.mem_of_mem_eraseP member)) fits young
  have fmt : d.inode.format = FMT_EXTENT ∨ d.inode.format = FMT_TREE := one.format
  have merged : Dir.tryMerge bs (fuel + 1) d' = (.ok (), d') := by
    have round : Dir.mergeRound bs d' = (.ok (some ()), d') := by
      rw [Dir.mergeRound, bind_ok _ _ next.dhdrRead]
      rfl
    show loop (Dir.mergeRound bs) (fuel + 1) d' = _
    rw [loop, bind_ok _ _ round]
    rfl
  have counted : Dir.dirCount bs d' =
      (.ok (sortNames (es.eraseP fun e => e.name == name)).length, d') := by
    rw [Dir.dirCount, bind_ok _ _ next.dirList]
    rfl
  have some : ¬ (sortNames (es.eraseP fun e => e.name == name)).length = 0 := by
    rw [(sortNames_perm _).length_eq]
    exact fun zero => left (List.length_eq_zero_iff.mp zero)
  refine ⟨d', ?_, next, count⟩
  rw [Dir.dirRemove, bind_ok _ _ get_run, if_neg one.format.not_embed, if_pos fmt,
    bind_ok _ _ one.dhdrRead, bind_ok _ _ (tableAt _ d), bind_ok _ _ one.bucketRead, find_keyed,
    found]
  dsimp only [Option.map_some]
  rw [eraseP_keyed, bind_ok _ _ run, bind_ok _ _ merged, bind_ok _ _ counted, if_neg some]
  rfl

end OneBucket

theorem DirHolds.small (holds : DirHolds bs hash d es) (unhashed : ¬ HashFormat d.inode.format) :
    (d.inode.format = FMT_EMPTY ∨ d.inode.format = FMT_EMBED) ∧ (∀ fb, d.blocks fb = none) ∧
      entriesSize es ≤ INODE_PAYLOAD ∧ (Dir.embed d).blocks = d.blocks ∧
      (Dir.embed d).inode.isDir = true ∧
      (Dir.embed d).inode.payload = putDir zeros 0 (es.map NamedEntry.coded) := by
  cases holds with
  | empty isDir format clear =>
      have embed : Dir.embed d =
          { d with inode := { d.inode with format := FMT_EMBED, payload := zeros } } :=
          if_pos format
      rw [embed]
      exact ⟨.inl format, clear, Nat.zero_le _, rfl, isDir, rfl⟩
  | embedded isDir format clear known room named payload =>
      have embed : Dir.embed d = d := if_neg (by rw [format]; decide)
      rw [embed]
      exact ⟨.inr format, clear, room, rfl, isDir, payload⟩
  | hashed inv =>
      obtain ⟨_, _, _, hashed⟩ := inv
      exact absurd hashed.format unhashed

theorem DirHolds.append (holds : DirHolds bs hash d es) (unhashed : ¬ HashFormat d.inode.format)
    (space : Space) (fuel : Nat) {e : NamedEntry} (proper : e.Proper)
    (new : ∀ e' ∈ es, e'.name ≠ e.name) (room : entriesSize es + e.need ≤ INODE_PAYLOAD) :
    ∃ d', Dir.dirInsert bs hash space fuel e d = (.ok (), d') ∧
    d'.inode.format = (Dir.embed d).inode.format := by
  obtain ⟨format, clear, small, blocks, isDir, payload⟩ := holds.small unhashed
  have absent : es.find? (fun e' => e'.name == e.name) = none := by
    apply List.find?_eq_none.mpr
    intro e' member
    simpa using new e' member
  have append := dirAppendNamed_putDir holds.proper small proper
  rw [if_neg (by omega)] at append
  refine ⟨{ Dir.embed d with inode := { (Dir.embed d).inode with
    payload := putDir zeros 0 ((es ++ [e]).map NamedEntry.coded) } }, ?_, rfl⟩
  rw [Dir.dirInsert, Dir.dirInsertCall, bind_ok _ _ (holds.dirFind e.name), absent,
    if_neg (by decide), bind_ok _ _ get_run, if_pos format, bind_ok _ _ (modify_run _),
    bind_ok _ _ get_run, Prog.run, payload, append]
  rfl

theorem dirToHashed_one (takes : TakesBlocksize bs) (clear : ∀ fb, d.blocks fb = none)
    (isDir : d.inode.isDir = true) (old : dirParseNamed d.inode.payload = es)
    (proper : ∀ e ∈ es, e.Proper)
    (fits : BK_HDR + bucketSize (es.map (NamedEntry.keyed hash)) ≤ bs)
    (few : es.length + 1 < 2 ^ 64)
    (fuel : Nat) :
    ∃ d', Dir.dirToHashed bs hash roomy (fuel + 1) d = (.ok (), d') ∧ OneBucket bs hash es d' ∧
      Dir.generation 1 d' = es.length + 1 := by
  have large : 2048 ≤ bs := by
    obtain ⟨_, _, large, _⟩ := takes
    exact large
  have header : DH_HDR + [0].length * 4 + ([] : List Nat).length * 4 ≤ bs := by
    simp only [DH_HDR, List.length_singleton, List.length_nil]
    omega
  have empty : BK_HDR + bucketSize [] ≤ bs := by
    simp only [BK_HDR, bucketSize, List.map_nil, List.sum_nil]
    omega
  obtain ⟨d₁, run₁, wrote₁, read₁⟩ := Dir.dhdrWrite_run (shape_single hash).header rfl header
    (d := ⟨{ d.inode with format := FMT_EXTENT, payload := zeros, nblocks := 1 },
      Function.update (Function.update d.blocks 0 (some zeros)) 1 (some zeros)⟩)
    (by show getU64 zeros 8 + 1 < 2 ^ 64; rw [getU64, getBE_zeros]; decide)
  have fresh : Dir.generation 1 d₁ = 0 := by
    rw [Dir.generation, wrote₁.others 1 (by decide)]
    dsimp only
    rw [Function.update_self, Option.elim_some, getU64, getBE_zeros]
  obtain ⟨d₂, run₂, wrote₂, read₂⟩ := Dir.bucketWrite_run takes []
    (fun e member => absurd member List.not_mem_nil) (show 0 < 2 ^ 8 by decide) empty
    (show Dir.generation (1 + 0) d₁ + 1 < 2 ^
    64 by rw [show (1 + 0 : Nat) = 1 from rfl, fresh]; decide)
  have count₂ : Dir.generation 1 d₂ = 1 := by
    rw [Dir.bucketWrite_generation run₂, show (1 + 0 : Nat) = 1 from rfl, fresh]
  have one : OneBucket bs hash [] { d₂ with inode := { d₂.inode with size := 2 * bs } } := by
    refine ⟨?_, ?_, ?_, read₂, fun e member => absurd member List.not_mem_nil⟩
    · show d₂.inode.isDir = true
      rw [wrote₂.inode, wrote₁.inode]
      exact isDir
    · show HashFormat d₂.inode.format
      rw [wrote₂.inode, wrote₁.inode]
      exact .inl rfl
    · show Dir.headerAt bs (d₂.blocks 0) = _
      rw [wrote₂.others 0 (by decide)]
      exact read₁
  have gen : Dir.generation 1 { d₂ with inode := { d₂.inode with size := 2 * bs } } = 1 := count₂
  obtain ⟨d₃, run₃, next, count₃⟩ := one.insertAll takes roomy fuel proper fits (by omega)
  refine ⟨d₃, ?_, next, by omega⟩
  have hole₀ : ∀ i, (Dir.mk i d.blocks).blocks 0 = none := fun _ => clear 0
  have hole₁ : ∀ i, (Dir.mk i (Function.update d.blocks 0 (some zeros))).blocks 1 = none := by
    intro i
    show Function.update d.blocks 0 (some zeros) 1 = none
    rw [Function.update_of_ne (by decide)]
    exact clear 1
  rw [Dir.dirToHashed, bind_ok _ _ get_run, bind_ok _ _ (modify_run _),
    bind_ok _ _ (ensure_roomy (hole₀ _)), bind_ok _ _ (ensure_roomy (hole₁ _))]
  dsimp only
  rw [bind_ok _ _ run₁, bind_ok _ _ run₂, bind_ok _ _ (modify_run _), old]
  exact run₃

theorem DirHolds.convert (holds : DirHolds bs hash d es) (unhashed : ¬ HashFormat d.inode.format)
    (takes : TakesBlocksize bs) (fuel : Nat) {e : NamedEntry} (proper : e.Proper)
    (new : ∀ e' ∈ es, e'.name ≠ e.name) (full : entriesSize es + e.need > INODE_PAYLOAD)
    (fits : BK_HDR + bucketSize ((es ++ [e]).map (NamedEntry.keyed hash)) ≤ bs)
    (few : es.length + 2 < 2 ^ 64) :
    ∃ d', Dir.dirInsert bs hash roomy (fuel + 1) e d = (.ok (), d') ∧
      OneBucket bs hash (es ++ [e]) d' ∧ Dir.generation 1 d' = es.length + 2 := by
  obtain ⟨format, clear, small, blocks, isDir, payload⟩ := holds.small unhashed
  have absent : es.find? (fun e' => e'.name == e.name) = none := by
    apply List.find?_eq_none.mpr
    intro e' member
    simpa using new e' member
  have append := dirAppendNamed_putDir holds.proper small proper
  rw [if_pos full] at append
  have part : BK_HDR + bucketSize (es.map (NamedEntry.keyed hash)) ≤ bs := by
    rw [List.map_append, bucketSize_append] at fits
    omega
  obtain ⟨d₁, run₁, one₁, count₁⟩ := dirToHashed_one (d := Dir.embed d) takes (by rwa [blocks])
      isDir
    (by rw [payload, dirParseNamed_putDir holds.proper small]) holds.proper part (by omega) fuel
  obtain ⟨d₂, run₂, one₂, count₂⟩ := one₁.insertCall takes roomy fuel proper new fits (by omega)
    (panicWith "a hashed directory is not converted again")
  refine ⟨d₂, ?_, one₂, by omega⟩
  rw [Dir.dirInsert, Dir.dirInsertCall, bind_ok _ _ (holds.dirFind e.name), absent,
    if_neg (by decide), bind_ok _ _ get_run, if_pos format, bind_ok _ _ (modify_run _),
    bind_ok _ _ get_run, Prog.run, payload, append]
  dsimp only
  rw [bind_ok _ _ run₁, run₂]

end FiveFs
