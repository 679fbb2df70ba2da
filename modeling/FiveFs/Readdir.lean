import FiveFs.Directory
import FiveFs.Lib.Cursor

/-! Listing a directory through the mount: successive calls that follow the offsets they are given,
with insertions and removals between them. -/

namespace FiveFs

open Buffer Prog

def FUSE_ROOT : Nat := 1

/-- What `reply.add` is given for an entry, but for the offset. -/
structure DirReply where
  ino : Nat
  isDirectory : Bool
  name : String
  deriving DecidableEq, Repr

def NamedEntry.reply (e : NamedEntry) : DirReply := ⟨e.ino, e.ftype == DT_DIR, e.name⟩

def readdirAll (ino : Nat) (entries : List NamedEntry) : List DirReply :=
  ⟨ino, true, "."⟩ :: ⟨FUSE_ROOT, true, ".."⟩ :: entries.map NamedEntry.reply

section Readdir

variable [Crc32c] (bs : Nat) (hash : String → UInt64) (ino : Nat)

/-- The entries from `offset` on, as many as the reply has room for, each with the offset after it.
-/
def readdir (offset room : Nat) : Prog Dir (List (DirReply × Nat)) := do
  let entries ← Dir.dirList bs
  return (((readdirAll ino entries).zipIdx 1).drop offset).take room

/-- A caller goes on from the offset of the last entry it was given. -/
def followed (offset : Nat) (replies : List (DirReply × Nat)) : Nat :=
  (replies.getLast?.map Prod.snd).getD offset

def listing (d : Dir) : List NamedEntry :=
  match (Dir.dirList bs d).1 with
  | .ok entries => entries
  | .error _ => []

/-- The index of an entry among all that `readdir` lists. -/
def place (e : NamedEntry) (d : Dir) : Nat := (readdirAll ino (listing bs d)).idxOf e.reply

/-- Calls of `readdir` with any room, and insertions and removals of other names between them, from
a directory that has `e`: the directory, the offset to go on from, the entries returned, and how
many changes moved `e` from the part still to be listed to the part behind the offset, and back. -/
inductive Reading (e : NamedEntry) : Dir → Nat → List DirReply → Nat → Nat → Prop
  | start {d : Dir} : DirRun bs hash d → e ∈ listing bs d → Reading e d 0 [] 0 0
  | call {d d' : Dir} {offset skips repeats room : Nat} {out : List DirReply}
      {replies : List (DirReply × Nat)} :
      Reading e d offset out skips repeats → readdir bs ino offset room d = (.ok replies, d') →
      Reading e d' (followed offset replies) (out ++ replies.map Prod.fst) skips repeats
  | insert {d d' : Dir} {offset skips repeats fuel : Nat} {out : List DirReply} {added : NamedEntry}
      {space : Space} :
      Reading e d offset out skips repeats → added.Proper →
      Dir.dirInsert bs hash space fuel added d = (.ok (), d') →
      Reading e d' offset out
        (skips + if offset ≤ place bs ino e d ∧ place bs ino e d' < offset then 1 else 0)
        (repeats + if place bs ino e d < offset ∧ offset ≤ place bs ino e d' then 1 else 0)
  | remove {d d' : Dir} {offset skips repeats fuel : Nat} {out : List DirReply} {name : String}
      {removed : NamedEntry}
      {space : Space} : Reading e d offset out skips repeats → name ≠ e.name →
      Dir.dirRemove bs hash space fuel name d = (.ok removed, d') →
      Reading e d' offset out
        (skips + if offset ≤ place bs ino e d ∧ place bs ino e d' < offset then 1 else 0)
        (repeats + if place bs ino e d < offset ∧ offset ≤ place bs ino e d' then 1 else 0)

end Readdir

section Places

theorem count_reply {es : List NamedEntry} (named : Named es) {e : NamedEntry} (member : e ∈ es)
    (dot : e.name ≠ ".")
    (dots : e.name ≠ "..") (ino : Nat) : (readdirAll ino es).count e.reply = 1 := by
  have inj : ∀ e' ∈ es, e'.reply = e.reply → e' = e := by
    intro e' listed same
    exact named.inj listed member (congrArg DirReply.name same)
  have once : (es.map NamedEntry.reply).count e.reply = 1 := by
    apply List.count_eq_one_of_mem
    · refine List.Nodup.of_map DirReply.name ?_
      rw [List.map_map]
      exact named
    · exact List.mem_map_of_mem member
  rw [readdirAll, List.count_cons_of_ne, List.count_cons_of_ne, once]
  · exact fun same => dots (congrArg DirReply.name same).symm
  · exact fun same => dot (congrArg DirReply.name same).symm

theorem mem_inserted {es : List NamedEntry} {e added : NamedEntry} (member : e ∈ es) (d : Dir) :
    e ∈ inserted d es added :=
  (inserted_perm d es added).symm.subset (List.mem_cons_of_mem added member)

theorem followed_eq {all : List DirReply} (offset room : Nat) :
    followed offset (((all.zipIdx 1).drop offset).take room) = offset +
    (((all.drop offset).take room).length) := by
  rw [followed, List.getLast?_eq_getElem?, List.getElem?_take, List.getElem?_drop,
      List.getElem?_zipIdx]
  simp only [List.length_take, List.length_drop, List.length_zipIdx]
  by_cases some : 0 < min room (all.length - offset)
  · rw [if_pos (by omega), List.getElem?_eq_getElem (by omega)]
    simp
    omega
  · have none : min room (all.length - offset) = 0 := by omega
    rw [none]
    by_cases empty : room = 0
    · simp [empty]
    · have far : all.length ≤ offset := by omega
      rw [List.getElem?_eq_none (by omega)]
      simp

theorem idxOf_reply {es : List NamedEntry} {e : NamedEntry} (member : e ∈ es) (named : Named es) :
    (es.map NamedEntry.reply).idxOf e.reply = es.idxOf e := by
  induction es with
  | nil => cases member
  | cons a rest ih =>
      have apart := (List.nodup_cons.mp named).1
      by_cases here : a = e
      · rw [List.map_cons, here, List.idxOf_cons_self, List.idxOf_cons_self]
      · have later : e ∈ rest := (List.mem_cons.mp member).resolve_left fun same => here same.symm
        have other : a.reply ≠ e.reply := by
          intro same
          have names : a.name = e.name := congrArg DirReply.name same
          apply apart
          rw [names]
          exact List.mem_map_of_mem later
        rw [List.map_cons, List.idxOf_cons_ne _ other, List.idxOf_cons_ne _ here,
            ih later (List.nodup_cons.mp named).2]

theorem idxOf_byName {es : List NamedEntry} {e : NamedEntry} (member : e ∈ es) (named : Named es)
    (sorted : ByName es) :
    es.idxOf e = es.countP fun a => decide (a.name < e.name) := by
  induction es with
  | nil => cases member
  | cons a rest ih =>
      have apart := (List.nodup_cons.mp named).1
      have above : ∀ b ∈ rest, a.name ≤ b.name :=
          fun b listed => List.rel_of_pairwise_cons sorted listed
      by_cases here : a = e
      · have none : (a :: rest).countP (fun b => decide (b.name < e.name)) = 0 := by
          apply List.countP_eq_zero.mpr
          intro b listed
          rw [decide_eq_true_eq, not_lt]
          rcases List.mem_cons.mp listed with first | later
          · rw [first, here]
          · exact here ▸ above b later
        rw [none, here, List.idxOf_cons_self]
      · have later : e ∈ rest := (List.mem_cons.mp member).resolve_left fun same => here same.symm
        have less : a.name < e.name := by
          refine lt_of_le_of_ne (above e later) fun same => apart ?_
          rw [same]
          exact List.mem_map_of_mem later
        rw [List.idxOf_cons_ne _ here, ih later (List.nodup_cons.mp named).2
            (List.Pairwise.of_cons sorted),
          List.countP_cons, if_pos (decide_eq_true less)]

theorem idxOf_eraseP {es : List NamedEntry} {e r : NamedEntry} {name : String} (named : Named es)
    (member : e ∈ es)
    (found : es.find? (fun a => a.name == name) = some r) (other : name ≠ e.name) :
    (es.eraseP fun a => a.name == name).idxOf e = es.idxOf e - if es.idxOf r < es.idxOf
    e then 1 else 0 := by
  induction es with
  | nil => cases member
  | cons a rest ih =>
      rw [List.find?_cons] at found
      rw [List.eraseP_cons]
      cases hit : a.name == name with
      | true =>
          rw [hit] at found
          obtain rfl := Option.some.inj found
          have here : a ≠ e := fun same => other (same ▸ (beq_iff_eq.mp hit).symm)
          rw [List.idxOf_cons_self, List.idxOf_cons_ne _ here]
          simp
      | false =>
          rw [hit] at found
          have listed := List.mem_of_find?_eq_some found
          have apart : a ≠ r := fun same => (List.nodup_cons.mp named).1
              (same ▸ List.mem_map_of_mem listed)
          rw [cond_false]
          by_cases here : a = e
          · rw [here, List.idxOf_cons_self, List.idxOf_cons_self, Nat.zero_sub]
          · have later : e ∈ rest := (List.mem_cons.mp member).resolve_left fun same =>
                here same.symm
            rw [List.idxOf_cons_ne _ here, List.idxOf_cons_ne _ here, List.idxOf_cons_ne _ apart,
              ih (List.nodup_cons.mp named).2 later found]
            split_ifs <;> omega

variable [Crc32c] {bs : Nat} {hash : String → UInt64} {ino : Nat} {d : Dir} {es : List NamedEntry}
    {e : NamedEntry}

theorem DirHolds.place (holds : DirHolds bs hash d es) (member : e ∈ es) (dot : e.name ≠ ".")
    (dots : e.name ≠ "..") :
    place bs ino e d = 2 + es.idxOf e := by
  have first : (⟨ino, true, "."⟩ : DirReply) ≠ e.reply :=
      fun same => dot (congrArg DirReply.name same).symm
  have second : (⟨FUSE_ROOT, true, ".."⟩ : DirReply) ≠ e.reply :=
      fun same => dots (congrArg DirReply.name same).symm
  rw [FiveFs.place, FiveFs.listing, holds.dirList, readdirAll, List.idxOf_cons_ne _ first,
      List.idxOf_cons_ne _ second,
    idxOf_reply member holds.named]
  omega

theorem DirHolds.listing (holds : DirHolds bs hash d es) : listing bs d = es := by
  rw [FiveFs.listing, holds.dirList]

theorem DirHolds.readdir (holds : DirHolds bs hash d es) (offset room : Nat) :
    readdir bs ino offset room d = (.ok ((((readdirAll ino es).zipIdx 1).drop offset).take room),
    d) := by
  rw [FiveFs.readdir, bind_ok _ _ holds.dirList]
  rfl

theorem Reading.scan (takes : TakesBlocksize bs) (dot : e.name ≠ ".") (dots : e.name ≠ "..")
    {offset skips repeats : Nat}
    {out : List DirReply} (reading : Reading bs hash ino e d offset out skips repeats) :
    DirRun bs hash d ∧ e ∈ FiveFs.listing bs d ∧
      Cursor.Scan e.reply (readdirAll ino (FiveFs.listing bs d)) offset out skips repeats := by
  induction reading with
  | @start d run member =>
      obtain ⟨es, holds⟩ := run.holds takes
      refine ⟨run, member, Cursor.Scan.start ?_⟩
      rw [holds.listing] at member ⊢
      exact count_reply holds.named member dot dots ino
  | @call d d' offset skips repeats room out replies _ answer ih =>
      obtain ⟨run, member, scan⟩ := ih
      obtain ⟨es, holds⟩ := run.holds takes
      rw [holds.readdir] at answer
      cases answer
      refine ⟨run, member, ?_⟩
      rw [holds.listing] at scan ⊢
      rw [followed_eq, List.map_take, List.map_drop, List.zipIdx_map_fst]
      exact scan.read room
  | @insert d d' offset skips repeats fuel out added space _ proper added_ ih =>
      obtain ⟨run, member, scan⟩ := ih
      obtain ⟨es, holds⟩ := run.holds takes
      obtain ⟨_, next, _⟩ := wp_ok (dirInsert_wp takes space fuel proper holds) added_
      have member' : e ∈ FiveFs.listing bs d' := by
        rw [holds.listing] at member
        rw [next.listing]
        exact mem_inserted member d
      refine ⟨run.insert proper added_, member', scan.change ?_⟩
      rw [next.listing] at member' ⊢
      exact count_reply next.named member' dot dots ino
  | @remove d d' offset skips repeats fuel out name removed space _ other removed_ ih =>
      obtain ⟨run, member, scan⟩ := ih
      obtain ⟨es, holds⟩ := run.holds takes
      obtain ⟨_, next, _⟩ := wp_ok (dirRemove_wp takes space fuel name holds) removed_
      have member' : e ∈ FiveFs.listing bs d' := by
        rw [holds.listing] at member
        rw [next.listing]
        exact (List.mem_eraseP_of_neg (by simpa using Ne.symm other)).mpr member
      refine ⟨run.remove removed_, member', scan.change ?_⟩
      rw [next.listing] at member' ⊢
      exact count_reply next.named member' dot dots ino

end Places

section Returned

variable [Crc32c] {bs : Nat} {hash : String → UInt64} {ino : Nat} {d : Dir} {e : NamedEntry}
    {offset skips repeats : Nat}
  {out : List DirReply}

/-- Over any interleaving of the calls with insertions and removals, an entry that stays is returned
once by the time a call with room for an entry returns none, but for the changes that moved it
across the offset to go on from: those that moved it behind the offset each cost a return of it, and
those that moved it ahead again each give one more. -/
theorem readdir_balance (takes : TakesBlocksize bs) (dot : e.name ≠ ".") (dots : e.name ≠ "..")
    (reading : Reading bs hash ino e d offset out skips repeats) {room : Nat} {d' : Dir}
    (last : readdir bs ino offset (room + 1) d = (.ok [], d')) :
    out.count e.reply + skips = 1 + repeats := by
  obtain ⟨run, member, scan⟩ := reading.scan takes dot dots
  obtain ⟨es, holds⟩ := run.holds takes
  refine scan.finished ?_
  rw [holds.readdir] at last
  rw [holds.listing]
  have none := Except.ok.inj (congrArg Prod.fst last)
  have length := congrArg List.length none
  rw [List.length_take, List.length_drop, List.length_zipIdx, List.length_nil] at length
  omega

/-- How a change moves an entry among those that `readdir` lists. In a hashed directory its place
counts the smaller names, so that an insertion of a smaller name moves it back by one and the
conversion to a hashed directory sorts it in; an insertion into an embedded directory leaves it. A
removal moves it forward by one exactly when the removed entry was listed before it. -/
theorem place_moves (takes : TakesBlocksize bs) (run : DirRun bs hash d) (member : e ∈ listing bs d)
    (dot : e.name ≠ ".")
    (dots : e.name ≠ "..") :
    (HashFormat d.inode.format → place bs ino e d = 2 + (listing bs d).countP fun a =>
    decide (a.name < e.name)) ∧
    (∀ (added : NamedEntry) (space : Space) (fuel : Nat) (d' : Dir), added.Proper →
      Dir.dirInsert bs hash space fuel added d = (.ok (), d') →
      (HashFormat d'.inode.format → place bs ino e
      d' = 2 + ((listing bs d).countP fun a => decide (a.name < e.name)) +
        if added.name < e.name then 1 else 0) ∧
      (¬ HashFormat d'.inode.format → place bs ino e d' = place bs ino e d)) ∧
    ∀ (name : String) (space : Space) (fuel : Nat) (removed : NamedEntry) (d' : Dir),
        name ≠ e.name →
      Dir.dirRemove bs hash space fuel name d = (.ok removed, d') → removed ∈ listing bs d ∧
      place bs ino e d' = place bs ino e d - if (listing bs d).idxOf removed < (listing bs d).idxOf
      e then 1 else 0 := by
  obtain ⟨es, holds⟩ := run.holds takes
  rw [holds.listing] at member ⊢
  rw [holds.place member dot dots]
  refine ⟨fun format => ?_, fun added space fuel d' proper added_ => ?_,
      fun name space fuel removed d' other removed_ => ?_⟩
  · cases holds with
    | empty _ empty => exact absurd empty format.not_empty
    | embedded _ embed => exact absurd embed format.not_embed
    | hashed _ named sorted => rw [idxOf_byName member named sorted]
  · obtain ⟨_, next, format⟩ := wp_ok (dirInsert_wp takes space fuel proper holds) added_
    have member' : e ∈ inserted d es added := mem_inserted member d
    rw [next.place member' dot dots]
    constructor
    · intro hashed
      have sorts := format.mp hashed
      have named := next.named
      rw [inserted, if_pos sorts] at named member' ⊢
      rw [idxOf_byName member' named (sortNames_byName _), (sortNames_perm _).countP_eq,
          List.countP_cons]
      simp only [decide_eq_true_eq, Nat.add_assoc]
    · intro unhashed
      have appends := fun either => unhashed (format.mpr either)
      rw [inserted, if_neg appends, List.idxOf_append_of_mem member]
  · obtain ⟨found, next, _⟩ := wp_ok (dirRemove_wp takes space fuel name holds) removed_
    have member' : e ∈ es.eraseP fun a => a.name == name :=
      (List.mem_eraseP_of_neg (by simpa using Ne.symm other)).mpr member
    refine ⟨List.mem_of_find?_eq_some found, ?_⟩
    rw [next.place member' dot dots, idxOf_eraseP holds.named member found other]
    split_ifs <;> omega

end Returned

section Sample

theorem two_sorted : sortNames [entryB, longEntry] = [longEntry, entryB] := by
  have perm : [entryB, longEntry].Perm [longEntry, entryB] := List.Perm.swap _ _ _
  exact ByName.eq (sortNames_byName _) (by simp [ByName, longEntry, entryB])
    (Named.perm (by simp [Named, longEntry, entryB]) (sortNames_perm _).symm)
    ((sortNames_perm _).trans perm)

theorem three_sorted : sortNames [entryB, longEntry, entryA] = [entryA, longEntry, entryB] := by
  have perm : [entryB, longEntry, entryA].Perm [entryA, longEntry, entryB] :=
    (List.reverse_perm _).symm
  exact ByName.eq (sortNames_byName _) (by simp [ByName, longEntry, entryB, entryA])
    (Named.perm (by simp [Named, longEntry, entryB, entryA]) (sortNames_perm _).symm)
    ((sortNames_perm _).trans perm)

variable [Crc32c] {hash : String → UInt64} {d₁ d₂ d₃ d₄ d₅ : Dir}

theorem Sample.listings (s : Sample hash d₁ d₂ d₃ d₄ d₅) : listing 2048 d₁ = [entryB] ∧
    listing 2048 d₂ = [longEntry, entryB] ∧ listing 2048 d₃ = [entryA, longEntry, entryB] ∧
    listing 2048 d₄ = [longEntry, entryB] ∧ listing 2048 d₅ = [entryA, longEntry, entryB] := by
  have two : sortNames [entryB, longEntry] = [longEntry, entryB] := two_sorted
  have three : sortNames [entryB, longEntry, entryA] = [entryA, longEntry, entryB] := three_sorted
  refine ⟨s.before.1.listing, ?_, ?_, ?_, ?_⟩
  · rw [listing, s.after.dirList]
    exact two
  · rw [listing, s.three.dirList]
    exact three
  · rw [listing, s.two.dirList]
    exact two
  · rw [listing, s.last.dirList]
    exact three

end Sample

/-- `a` is removed before a caller gets to `b`, which it misses then, and comes again before the
last call, which returns `b`. -/
theorem readdir_balance_long : ∃ d out, @Reading castagnoli 2048 (fun _ => 0) 2 entryB d 5 out 1 1 ∧
    out.count entryB.reply + 1 = 1 + 1 := by
  let crc := castagnoli
  obtain ⟨d₁, d₂, d₃, d₄, d₅, s⟩ := sample_run fun _ => 0
  obtain ⟨-, -, list₃, list₄, list₅⟩ := s.listings
  have place₃ : place 2048 2 entryB d₃ = 4 := by rw [place, list₃]; decide
  have place₄ : place 2048 2 entryB d₄ = 3 := by rw [place, list₄]; decide
  have place₅ : place 2048 2 entryB d₅ = 4 := by rw [place, list₅]; decide
  have first : readdir 2048 2 0 4 d₃ = (.ok (((readdirAll 2 [entryA, longEntry, entryB]).zipIdx
      1).take 4), d₃) := by
    rw [readdir, bind_ok _ _ s.three.dirList, three_sorted]
    rfl
  have second : readdir 2048 2 4 4 d₅ =
      (.ok (((readdirAll 2 [entryA, longEntry, entryB]).zipIdx 1).drop 4), d₅) := by
    rw [readdir, bind_ok _ _ s.last.dirList, three_sorted]
    rfl
  have last : readdir 2048 2 5 (0 + 1) d₅ = (.ok [], d₅) := by
    rw [readdir, bind_ok _ _ s.last.dirList, three_sorted]
    rfl
  have member : entryB ∈ listing 2048 d₃ := by
    rw [list₃]
    decide
  have start : Reading 2048 (fun _ => 0) 2 entryB d₃ 0 [] 0 0 := Reading.start s.run₃ member
  have removed := (start.call first).remove (by decide) s.removes
  have inserted := removed.insert entryA_proper s.again
  rw [place₃, place₄, place₅] at inserted
  have reading := inserted.call second
  exact ⟨d₅, _, reading, readdir_balance takes_2048 (by decide) (by decide) reading last⟩

/-- The conversion to a hashed directory, an insertion and a removal each move `b`. -/
theorem place_moves_long : ∃ d₁ d₂ d₃ d₄, @DirRun castagnoli 2048 (fun _ => 0) d₁ ∧
    @Dir.dirInsert castagnoli 2048 (fun _ => 0) roomy 1 longEntry d₁ = (.ok (), d₂) ∧
    @Dir.dirInsert castagnoli 2048 (fun _ => 0) roomy 1 entryA d₂ = (.ok (), d₃) ∧
    @Dir.dirRemove castagnoli 2048 (fun _ => 0) roomy 1 "a" d₃ = (.ok entryA, d₄) ∧
    @place castagnoli 2048 2 entryB d₁ = 2 ∧ @place castagnoli 2048 2 entryB d₂ = 3 ∧
    @place castagnoli 2048 2 entryB d₃ = 4 ∧ @place castagnoli 2048 2 entryB d₄ = 3 := by
  let crc := castagnoli
  obtain ⟨d₁, d₂, d₃, d₄, d₅, s⟩ := sample_run fun _ => 0
  obtain ⟨list₁, list₂, list₃, -⟩ := s.listings
  have moves₁ := @place_moves _ _ _ 2 _ _ takes_2048 s.run₁ (by rw [list₁]; decide)
      (by decide : entryB.name ≠ ".") (by decide)
  have moves₂ := @place_moves _ _ _ 2 _ _ takes_2048 s.run₂ (by rw [list₂]; decide)
      (by decide : entryB.name ≠ ".") (by decide)
  have moves₃ := @place_moves _ _ _ 2 _ _ takes_2048 s.run₃ (by rw [list₃]; decide)
      (by decide : entryB.name ≠ ".") (by decide)
  have converted := (moves₁.2.1 longEntry roomy 1 d₂ longEntry_proper s.converts).1 s.after.format
  have inserted := (moves₂.2.1 entryA roomy 1 d₃ entryA_proper s.inserts).1 s.three.format
  have removed := (moves₃.2.2 "a" roomy 1 entryA d₄ (by decide) s.removes).2
  have place₁ : place 2048 2 entryB d₁ = 2 := by rw [place, list₁]; decide
  rw [list₁] at converted
  rw [list₂] at inserted
  have place₃ : place 2048 2 entryB d₃ = 4 := inserted.trans (by decide)
  rw [list₃, place₃] at removed
  exact ⟨d₁, d₂, d₃, d₄, s.run₁, s.converts, s.inserts, s.removes, place₁,
      converted.trans (by decide), place₃,
    removed.trans (by decide)⟩

end FiveFs
