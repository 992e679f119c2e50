import Mathlib.Data.Finset.Card
import Mathlib.Order.Interval.Finset.Nat
import SimpleOs.Files.Consistency
import SimpleOs.Files.FailedCreation

/-!
# The test for a full disk

Two counters begin at 0 when the file system is mounted, go up with every file that is
created, and never go down. The entries of the maps that are in use are more by those that
were so at mount, and fewer by those that `sfs_unlink` has freed.
-/

namespace SimpleOs.Files

open Bytes Inode

variable {u : Unspecified} {s s' : Sfs} {disk disk' : Memory} {path newFile : List UInt8}
  {type : MapType} {fileMode now d o m b n j c : ℕ} {rand : ℕ × ℕ} {r : ℤ}

/-! ## Entries in use -/

/-- The number of entries of a map that are in use. -/
def used (disk : Memory) (type : MapType) : ℕ :=
  ((Finset.range 5000).filter fun n => disk (type.entry n) = 1).card

/-- The number of entries that were in use on the first disk and are free on the second. -/
def lost (disk disk' : Memory) (type : MapType) : ℕ :=
  ((Finset.range 5000).filter fun n => disk (type.entry n) = 1 ∧ disk' (type.entry n) ≠ 1).card

/-- Every entry of a map is in use. -/
def Full (disk : Memory) (type : MapType) : Prop := ∀ n < 5000, disk (type.entry n) = 1

/-- A map is full exactly if all its entries are counted. -/
theorem full_iff : Full disk type ↔ used disk type = 5000 := by
  have hcard := Finset.card_filter_eq_iff (s := Finset.range 5000)
    (p := fun n => disk (type.entry n) = 1)
  rw [Finset.card_range] at hcard
  rw [used, hcard]
  simp only [Finset.mem_range]
  rfl

theorem used_le : used disk type ≤ 5000 := by
  have hle := Finset.card_filter_le (Finset.range 5000) fun n => disk (type.entry n) = 1
  rwa [Finset.card_range] at hle

/-- Entries that are free are not counted. -/
theorem used_add_card_le (F : Finset ℕ)
    (hfree : ∀ n ∈ F, n < 5000 ∧ disk (type.entry n) ≠ 1) : used disk type + F.card ≤ 5000 := by
  have hdisjoint : Disjoint ((Finset.range 5000).filter fun n => disk (type.entry n) = 1) F := by
    rw [Finset.disjoint_left]
    exact fun n hn hF => (hfree n hF).2 (Finset.mem_filter.mp hn).2
  have hsub : ((Finset.range 5000).filter fun n => disk (type.entry n) = 1) ∪ F ⊆
      Finset.range 5000 :=
    Finset.union_subset (Finset.filter_subset _ _) fun n hn => Finset.mem_range.mpr (hfree n hn).1
  have hle := Finset.card_le_card hsub
  rwa [Finset.card_union_of_disjoint hdisjoint, Finset.card_range] at hle

/-- An entry that was in use and is free is lost. -/
theorem lost_pos (hn : n < 5000) (hone : disk (type.entry n) = 1)
    (hfree : disk' (type.entry n) ≠ 1) : 0 < lost disk disk' type :=
  Finset.card_pos.mpr ⟨n, Finset.mem_filter.mpr ⟨Finset.mem_range.mpr hn, hone, hfree⟩⟩

/-- If one entry that was free is in use, and the others are as before, one more is in use. -/
theorem used_succ (hm : m < 5000) (hfree : disk (type.entry m) ≠ 1)
    (hone : disk' (type.entry m) = 1)
    (hsame : ∀ n < 5000, n ≠ m → disk' (type.entry n) = disk (type.entry n)) :
    used disk' type = used disk type + 1 := by
  have hinsert : (Finset.range 5000).filter (fun n => disk' (type.entry n) = 1) =
      insert m ((Finset.range 5000).filter fun n => disk (type.entry n) = 1) := by
    ext n
    simp only [Finset.mem_filter, Finset.mem_range, Finset.mem_insert]
    by_cases hn : n = m
    · rw [hn]
      exact ⟨fun _ => Or.inl rfl, fun _ => ⟨hm, hone⟩⟩
    · constructor
      · exact fun h => Or.inr ⟨h.1, hsame n h.1 hn ▸ h.2⟩
      · rintro (h | h)
        · exact absurd h hn
        · exact ⟨h.1, (hsame n h.1 hn).trans h.2⟩
  rw [used, hinsert, Finset.card_insert_of_notMem]
  · rfl
  · simp [hfree]

/-- If no entry comes into use, the others have been lost. -/
theorem used_add_lost (type : MapType)
    (hkeep : ∀ n < 5000, disk' (type.entry n) = 1 → disk (type.entry n) = 1) :
    used disk' type + lost disk disk' type = used disk type := by
  have hstill : (Finset.range 5000).filter (fun n => disk' (type.entry n) = 1) =
      ((Finset.range 5000).filter fun n => disk (type.entry n) = 1).filter
        fun n => disk' (type.entry n) = 1 := by
    ext n
    simp only [Finset.mem_filter, Finset.mem_range]
    exact ⟨fun h => ⟨⟨h.1, hkeep n h.1 h.2⟩, h.2⟩, fun h => ⟨h.1.1, h.2⟩⟩
  have hlost : (Finset.range 5000).filter
      (fun n => disk (type.entry n) = 1 ∧ disk' (type.entry n) ≠ 1) =
      ((Finset.range 5000).filter fun n => disk (type.entry n) = 1).filter
        fun n => ¬disk' (type.entry n) = 1 := by
    rw [Finset.filter_filter]
  rw [used, lost, used, hstill, hlost]
  exact Finset.card_filter_add_card_filter_not _

/-! ## What the calls do to the maps -/

/-- The entries of the maps are before the inodes. -/
theorem entry_lt (hn : n < 5000) : type.entry n < 20 * BLOCK_SIZE := by
  cases type <;> simp only [MapType.entry, MapType.offset, BLOCK_SIZE] <;> omega

/-- The two maps have no byte in common. -/
theorem entry_inj {type' : MapType} (hn : n < 5000) (hm : m < 5000)
    (h : type.entry n = type'.entry m) : type = type' ∧ n = m := by
  cases type <;> cases type' <;> simp only [MapType.entry, MapType.offset, BLOCK_SIZE] at h <;>
    first | exact ⟨rfl, by omega⟩ | omega

/-- A file that is created takes one entry of each map. -/
theorem used_created (hcreates : Creates u path rand disk newFile d o m b) (hd : d < 2 ^ 31) :
    used (createdDisk u disk newFile fileMode now d o m b) type = used disk type + 1 := by
  have hm := hcreates.inode_lt
  have hb := hcreates.block_lt
  obtain ⟨_, _, hfree, _⟩ := hcreates.inode
  obtain ⟨_, _, hfree', _⟩ := hcreates.block
  have hmaps (n : ℕ) (hn : n < 5000) :
      createdDisk u disk newFile fileMode now d o m b (type.entry n) =
        claimedDisk disk m b (type.entry n) := createdDisk_maps hm hd (entry_lt hn)
  generalize createdDisk u disk newFile fileMode now d o m b = disk' at hmaps ⊢
  cases type with
  | inode =>
    apply used_succ hm hfree
    · rw [hmaps m hm, claimedDisk, Function.update_of_ne, Function.update_self]
      intro h
      cases (entry_inj hm hb h).1
    · intro n hn hne
      rw [hmaps n hn, claimedDisk, Function.update_of_ne, Function.update_of_ne]
      · exact fun h => hne (entry_inj hn hm h).2
      · intro h
        cases (entry_inj hn hb h).1
  | data =>
    apply used_succ hb hfree'
    · rw [hmaps b hb, claimedDisk, Function.update_self]
    · intro n hn hne
      rw [hmaps n hn, claimedDisk, Function.update_of_ne, Function.update_of_ne]
      · intro h
        cases (entry_inj hn hm h).1
      · exact fun h => hne (entry_inj hn hb h).2

/-- A file that is removed takes no entry. -/
theorem removed_keeps (hunlinks : Unlinks u path disk d j n) (hc : c < 20 * BLOCK_SIZE)
    (hone : removedDisk u disk d j n c = 1) : disk c = 1 := by
  have hn := hunlinks.readable.2
  have hbefore : c < inodeBlock n := by
    rw [inodeBlock_eq hn]
    unfold BLOCK_SIZE at *
    omega
  rw [removedDisk_outside (Or.inl hbefore)] at hone
  split at hone
  · exact absurd hone (by decide)
  · rw [unlinkedDisk_eq hunlinks.found.1, Function.update_apply] at hone
    split at hone
    · exact absurd hone (by decide)
    · by_cases hentry :
          inodeAt d + (block_ptr j).offset ≤ c ∧ c < inodeAt d + (block_ptr j).offset + 4
      · -- The bytes of -1 are no entries in use.
        obtain ⟨k, rfl⟩ := Nat.exists_eq_add_of_le hentry.1
        have hbyte := @store_minusOne disk (inodeAt d + (block_ptr j).offset) k (by omega)
        rw [Bytes.set] at hone
        exact absurd (hbyte.symm.trans hone) (by decide)
      · rwa [set_apply] at hone
        simp only [block_ptr] at hentry ⊢
        omega

/-! ## The searches of a call -/

/-- `sfs_create` searches a map, in a state that it has reached by then. -/
inductive Searches (u : Unspecified) (path : List UInt8) (rand : ℕ × ℕ) (s : Sfs) :
    MapType → Sfs → Prop where
  /-- The search for an inode, if the counter is not 5000 and the directory has a free
  entry. -/
  | inode {i d o : ℕ} {dir_block : Memory} {s₁ s₂ : Sfs}
      (hcount : s.numOccupiedInodeBytemap ≠ 5000)
      (hslash : lastSlash path path.length = some i)
      (hdir : getInodeNumbFromPath u (substring u path 0 i) s = some (d, s₁))
      (hread : getBlockByInodeNumb u d s₁ = some (dir_block, s₂))
      (hspace : openChildSpace dir_block (offsetInBlock d) = some o) :
      Searches u path rand s .inode s₂
  /-- The search for a data block, behind one for an inode that has found one. -/
  | data {i d o m : ℕ} {dir_block temp : Memory} {s₁ s₂ s₃ s₄ : Sfs}
      (hcount : s.numOccupiedInodeBytemap ≠ 5000)
      (hslash : lastSlash path path.length = some i)
      (hdir : getInodeNumbFromPath u (substring u path 0 i) s = some (d, s₁))
      (hread : getBlockByInodeNumb u d s₁ = some (dir_block, s₂))
      (hspace : openChildSpace dir_block (offsetInBlock d) = some o)
      (hinode : getFreeBitMapEntry .inode rand.1 s₂ = some (some m, s₃))
      (hread' : getBlockByInodeNumb u m
        { s₃ with numOccupiedInodeBytemap := s₃.numOccupiedInodeBytemap + 1 } = some (temp, s₄))
      (hfits : offsetInBlock d + name + (substring u path (i + 1) (path.length - 1)).length + 1 ≤
        2 * BLOCK_SIZE) : Searches u path rand s .data s₄

/-- The directory of a path is there and has a free entry. -/
def FreeParent (path : List UInt8) (u : Unspecified) (disk : Memory) (i d : ℕ) : Prop :=
  lastSlash path path.length = some i ∧
    lookup disk (strtok (substring u path 0 i)) 0 = some d ∧ Readable d ∧
    ∃ k < 10, entry disk d k = minusOne

/-- What `sfs_create` has read when it searches: a directory with a free entry. -/
theorem freeParent_of_read {i d o : ℕ} {dir_block : Memory} {s₁ s₂ : Sfs} (hs : s.errors = [])
    (hslash : lastSlash path path.length = some i)
    (hdir : getInodeNumbFromPath u (substring u path 0 i) s = some (d, s₁))
    (hread : getBlockByInodeNumb u d s₁ = some (dir_block, s₂))
    (hspace : openChildSpace dir_block (offsetInBlock d) = some o) :
    s₂ = s ∧ FreeParent path u s.disk i d := by
  obtain ⟨hlookup, hd, hsame⟩ := getInodeNumbFromPath_spec hdir hs
  obtain rfl := hsame
  obtain ⟨hreadable, rfl, hsame⟩ := getBlockByInodeNumb_spec hread hs hd
  obtain rfl := hsame
  obtain ⟨ho, hfree, _⟩ := openChildSpace_spec hspace
  rw [get_inodeBuffer (by simp only [block_ptr, Inode.size]; omega)] at hfree
  exact ⟨rfl, hslash, hlookup, hreadable, o, ho, hfree⟩

/-- A directory with a free entry is read. -/
theorem FreeParent.read {i d : ℕ} (h : FreeParent path u s.disk i d) (hs : s.errors = []) :
    ∃ o, getInodeNumbFromPath u (substring u path 0 i) s = some (d, s) ∧
      getBlockByInodeNumb u d s = some (inodeBuffer u s.disk d, s) ∧
      openChildSpace (inodeBuffer u s.disk d) (offsetInBlock d) = some o := by
  obtain ⟨_, hlookup, hreadable, k, hk, hfree⟩ := h
  have hsome : openChildSpace (inodeBuffer u s.disk d) (offsetInBlock d) ≠ none := by
    intro hnone
    apply openChildSpace_eq_none.mp hnone k hk
    rwa [get_inodeBuffer (by simp only [block_ptr, Inode.size]; omega)]
  obtain ⟨o, ho⟩ := Option.ne_none_iff_exists'.mp hsome
  refine ⟨o, ?_, ?_, ho⟩
  · rw [getInodeNumbFromPath_eq hs, hlookup]
    rfl
  · rw [getBlockByInodeNumb_eq hs (lookup_lt (by decide) hlookup), if_pos hreadable]

/-- The state of a search without errors: the map that is searched is as before the call. -/
theorem Searches.same (h : Searches u path rand s type s') (hs : s.errors = []) :
    s'.errors = [] ∧ ∀ n < 5000, s'.disk (type.entry n) = s.disk (type.entry n) := by
  cases h with
  | inode hcount hslash hdir hread hspace =>
    obtain ⟨rfl, _⟩ := freeParent_of_read hs hslash hdir hread hspace
    exact ⟨hs, fun _ _ => rfl⟩
  | data hcount hslash hdir hread hspace hinode hread' hfits =>
    obtain ⟨rfl, _⟩ := freeParent_of_read hs hslash hdir hread hspace
    obtain ⟨m, hm, hlt, _, rfl⟩ := getFreeBitMapEntry_spec hinode hs
    obtain rfl := Option.some.inj hm
    obtain ⟨_, _, rfl⟩ := getBlockByInodeNumb_spec hread' hs (by omega)
    refine ⟨hs, fun n hn => Function.update_of_ne (fun heq => ?_) _ _⟩
    cases (entry_inj hn hlt heq).1

/-- A map that is full is searched without end. -/
theorem getFreeBitMapEntry_full (hs : s.errors = []) (hfull : Full s.disk type) (rand : ℕ) :
    getFreeBitMapEntry type rand s = none := by
  cases hrun : getFreeBitMapEntry type rand s with
  | none => rfl
  | some found =>
    obtain ⟨m, _, hm, ⟨_, _, hfree, _⟩, _⟩ := getFreeBitMapEntry_spec hrun hs
    exact absurd (hfull m hm) hfree

/-- A call that searches a map that is full does not return. -/
theorem Searches.not_returns (h : Searches u path rand s type s') (hs : s.errors = [])
    (hfull : Full s'.disk type) : sfsCreate u path fileMode rand now s = none := by
  obtain ⟨hs', _⟩ := h.same hs
  have hnone := getFreeBitMapEntry_full hs' hfull
  cases h with
  | inode hcount hslash hdir hread hspace =>
    simp only [sfsCreate, if_neg hcount, hslash, hdir, hread, hspace, hnone, Option.bind_eq_bind,
      Option.bind_some, Option.bind_none]
  | data hcount hslash hdir hread hspace hinode hread' hfits =>
    simp only [sfsCreate, if_neg hcount, hslash, hdir, hread, hspace, hinode, hread', hfits, hnone,
      guard, if_true, Option.bind_eq_bind, Option.bind_some, Option.bind_none, pure]

/-- The disk and the arguments lead `sfs_create` to a search of the map: of that of the
inodes if the directory has a free entry, of that of the data blocks if moreover there is a
free inode that the search comes to, and the name fits in the memory. -/
def Asks (u : Unspecified) (path : List UInt8) (rand : ℕ × ℕ) (disk : Memory) : MapType → Prop
  | .inode => ∃ i d, FreeParent path u disk i d
  | .data => ∃ i d, FreeParent path u disk i d ∧
      (∃ e < 5000, (1 ≤ e ∨ e = rand.1 % 5000) ∧ disk (MapType.inode.entry e) ≠ 1) ∧
      offsetInBlock d + name + (substring u path (i + 1) (path.length - 1)).length + 1 ≤
        2 * BLOCK_SIZE

/-- Without errors, `sfs_create` searches a map exactly if its counter is not 5000 and the disk
and the arguments lead it there. -/
theorem searches_iff (hs : s.errors = []) : (∃ s', Searches u path rand s type s') ↔
    s.numOccupiedInodeBytemap ≠ 5000 ∧ Asks u path rand s.disk type := by
  constructor
  · rintro ⟨s', h⟩
    cases h with
    | inode hcount hslash hdir hread hspace =>
      exact ⟨hcount, _, _, (freeParent_of_read hs hslash hdir hread hspace).2⟩
    | data hcount hslash hdir hread hspace hinode hread' hfits =>
      obtain ⟨rfl, hfree⟩ := freeParent_of_read hs hslash hdir hread hspace
      obtain ⟨m, _, hm, ⟨k, rfl, hunused, _⟩, _⟩ := getFreeBitMapEntry_spec hinode hs
      exact ⟨hcount, _, _, hfree, ⟨_, hm, iterate_nextPosition_seen _ k, hunused⟩, hfits⟩
  · rintro ⟨hcount, hasks⟩
    cases type with
    | inode =>
      obtain ⟨i, d, hfree⟩ := hasks
      obtain ⟨o, hdir, hread, hspace⟩ := hfree.read hs
      exact ⟨s, .inode hcount hfree.1 hdir hread hspace⟩
    | data =>
      obtain ⟨i, d, hfree, ⟨e, he, hseen, hunused⟩, hfits⟩ := hasks
      obtain ⟨o, hdir, hread, hspace⟩ := hfree.read hs
      obtain ⟨m, hm, _, hinode⟩ := getFreeBitMapEntry_eq rand.1 hs hseen he hunused
      have hread' := getBlockByInodeNumb_eq (u := u) (n := m)
        (s := { s with
          disk := Function.update s.disk (MapType.inode.entry m) 1
          numOccupiedInodeBytemap := s.numOccupiedInodeBytemap + 1 }) hs (by omega)
      rw [if_pos (readable_of_lt hm)] at hread'
      exact ⟨_, .data hcount hfree.1 hdir hread hspace hinode hread' hfits⟩

/-- The test of `sfs_create` is exact: it refuses only if the inode map is full, and no map
that it searches is full. -/
def CheckExact (u : Unspecified) (path : List UInt8) (rand : ℕ × ℕ) (s : Sfs) : Prop :=
  (s.numOccupiedInodeBytemap = 5000 → Full s.disk .inode) ∧
    ∀ type s', Searches u path rand s type s' → ¬Full s'.disk type

/-! ## Runs -/

/-- A mounted file system, with what the code does not record. -/
structure Mounted where
  /-- The disk and the counters. -/
  sfs : Sfs
  /-- The entries of each map that were in use after `sfs_init`. -/
  atMount : MapType → ℕ
  /-- The number of files that `sfs_create` has created. -/
  created : ℕ
  /-- The entries of each map that `sfs_unlink` has freed. -/
  freed : MapType → ℕ

/-- A call of a run after the mount. -/
inductive MountedCall where
  /-- `sfs_create`, with the values of `rand()` and the time. -/
  | create (u : Unspecified) (path : List UInt8) (fileMode : ℕ) (rand : ℕ × ℕ) (now : ℕ)
  /-- A call of `sfs_unlink` for a path. -/
  | unlink (u : Unspecified) (path : List UInt8)

/-- The state after a call that returns. A call of `sfs_create` that returns 0 has created a
file, and one of `sfs_unlink` has freed what was in use before it and is not any more. -/
def Mounted.next (s : Mounted) : MountedCall → Option Mounted
  | .create u path fileMode rand now =>
    (sfsCreate u path fileMode rand now s.sfs).map fun (r, t) =>
      { s with
        sfs := t
        created := if r = 0 then s.created + 1 else s.created }
  | .unlink u path =>
    (sfsUnlink u path s.sfs).map fun (_, t) =>
      { s with
        sfs := t
        freed := fun type => s.freed type + lost s.sfs.disk t.disk type }

/-- A disk with whatever content on which `sfs_init` ran, with whatever was in its arrays.
There are no errors. -/
def MountedStart (s : Mounted) : Prop :=
  ∃ TEMP_INODE_BLOCK TEMP_BITMAP_BLOCK now t, t.errors = [] ∧
    sfsInit TEMP_INODE_BLOCK TEMP_BITMAP_BLOCK now t = some s.sfs ∧
    s.atMount = used s.sfs.disk ∧ s.created = 0 ∧ s.freed = fun _ => 0

/-- The condition on a call: the path before the last `/` does not lead to a negative number,
whose block is one of the maps. -/
def ParentNotNegative (s : Mounted) : MountedCall → Prop
  | .create u path _ _ _ => ∀ i d, lastSlash path path.length = some i →
      lookup s.sfs.disk (strtok (substring u path 0 i)) 0 = some d → d < 2 ^ 31
  | .unlink _ _ => True

/-- The states reached by such calls. -/
def MountedReach : Mounted → Prop :=
  Runs.Reach MountedStart (fun s e s' => s.next e = some s') ParentNotNegative

/-- The counter of a map. -/
def Sfs.counter (s : Sfs) : MapType → ℕ
  | .inode => s.numOccupiedInodeBytemap
  | .data => s.numOccupiedDataBlocksBytemap

/-- Both counters are the number of files that were created. The entries in use are those that
were so at mount and one for each of these files, less those that were freed. -/
structure Balanced (s : Mounted) : Prop where
  /-- There are no errors of the disk to come. -/
  errors : s.sfs.errors = []
  /-- Both counters are the number of files created. -/
  counted : ∀ type, s.sfs.counter type = s.created
  /-- The balance of each map. -/
  balance : ∀ type, used s.sfs.disk type + s.freed type = s.atMount type + s.created

/-- A call that returns keeps the balance: a file that is created takes an entry of each map,
and the entries that `sfs_unlink` frees are counted. -/
theorem Balanced.step {s s' : Mounted} {e : MountedCall} (h : Balanced s)
    (hok : ParentNotNegative s e) (hstep : s.next e = some s') : Balanced s' := by
  cases e with
  | create u path fileMode rand now =>
    obtain ⟨⟨r, t⟩, hrun, rfl⟩ := Option.map_eq_some_iff.mp hstep
    rcases sfsCreate_cases h.errors hrun with
      ⟨rfl, rfl⟩ | ⟨newFile, d, o, m, b, rfl, hcreates, rfl⟩
    · exact h
    · obtain ⟨i, hslash, _, hlookup⟩ := hcreates.split
      refine ⟨h.errors, fun type => ?_, fun type => ?_⟩
      · have hcounted := h.counted type
        cases type <;> simp only [Sfs.counter, if_true] at hcounted ⊢ <;> omega
      · have hbalance := h.balance type
        simp only [if_true]
        rw [used_created hcreates (hok i d hslash hlookup)]
        omega
  | unlink u path =>
    obtain ⟨⟨r, t⟩, hrun, rfl⟩ := Option.map_eq_some_iff.mp hstep
    obtain ⟨_, d, j, n, hunlinks, rfl⟩ := sfsUnlink_cases h.errors hrun
    refine ⟨h.errors, fun type => ?_, fun type => ?_⟩
    · have hcounted := h.counted type
      cases type <;> exact hcounted
    · have hbalance := h.balance type
      have hlost := used_add_lost type fun k hk hone =>
        removed_keeps hunlinks (entry_lt hk) hone
      dsimp only
      omega

/-- Every state that a run reaches is balanced. -/
theorem MountedReach.balanced {s : Mounted} (h : MountedReach s) : Balanced s := by
  apply Runs.Reach.invariant ?_ ?_ h
  · rintro s ⟨_, _, _, t, herrors, hinit, hmount, hcreated, hfreed⟩
    have hs := sfsInit_eq_some hinit
    refine ⟨by rw [hs, herrors]; rfl, fun type => ?_, fun type => ?_⟩
    · rw [hs, hcreated]
      cases type <;> rfl
    · rw [hmount, hcreated, hfreed]
  · exact fun s e s' h hok hstep => h.step hok hstep

/-- In every run in which files are created in directories whose numbers are not negative, the
test of the next call of `sfs_create` is exact exactly if the history of the run lets it be.
After 5000 creations, as many inodes must have been freed as were in use at mount. After any
other number of them, for each map that the disk and the arguments lead the call to search, the
entries in use at mount and the files created must be fewer than 5000 and the entries freed. -/
theorem full_check_exact_iff (s : Mounted) (h : MountedReach s) (u : Unspecified)
    (path : List UInt8) (rand : ℕ × ℕ) :
    CheckExact u path rand s.sfs ↔
      (s.created = 5000 → s.freed .inode = s.atMount .inode) ∧
        (s.created ≠ 5000 → ∀ type, Asks u path rand s.sfs.disk type →
          s.atMount type + s.created < 5000 + s.freed type) := by
  obtain ⟨herrors, hcounted, hbalance⟩ := h.balanced
  have hcount : s.sfs.numOccupiedInodeBytemap = s.created := hcounted .inode
  have hroom (type : MapType) : ¬Full s.sfs.disk type ↔
      s.atMount type + s.created < 5000 + s.freed type := by
    have hle := @used_le s.sfs.disk type
    have := hbalance type
    rw [full_iff]
    omega
  have hsearched (type : MapType) : (∀ s', Searches u path rand s.sfs type s' →
      ¬Full s'.disk type) ↔ (s.created ≠ 5000 → Asks u path rand s.sfs.disk type →
        s.atMount type + s.created < 5000 + s.freed type) := by
    have hsame {s' : Sfs} (hsearch : Searches u path rand s.sfs type s') :
        Full s'.disk type ↔ Full s.sfs.disk type :=
      forall_congr' fun n => imp_congr_right fun hn => by rw [(hsearch.same herrors).2 n hn]
    rw [← hroom, ← hcount]
    constructor
    · intro hexact hne hasks
      obtain ⟨s', hsearch⟩ := (searches_iff herrors).mpr ⟨hne, hasks⟩
      rw [← hsame hsearch]
      exact hexact s' hsearch
    · intro hnot s' hsearch
      obtain ⟨hne, hasks⟩ := (searches_iff herrors).mp ⟨s', hsearch⟩
      rw [hsame hsearch]
      exact hnot hne hasks
  have hrefuses : (s.sfs.numOccupiedInodeBytemap = 5000 → Full s.sfs.disk .inode) ↔
      (s.created = 5000 → s.freed .inode = s.atMount .inode) := by
    rw [hcount]
    refine imp_congr_right fun hfull => ?_
    have hinode := hbalance .inode
    rw [full_iff]
    omega
  rw [CheckExact, hrefuses]
  refine and_congr_right fun _ => ?_
  simp only [hsearched]
  exact forall_comm

/-! ## Runs on given inputs -/

/-- The file system after `sfs_init` on a disk without errors. The array of the map block had
some content, that of the inode block was zero-filled. -/
def mountedWith (TEMP_BITMAP_BLOCK disk : Memory) : Mounted where
  sfs := ⟨mountDisk disk (fun _ => 0) TEMP_BITMAP_BLOCK 0, [], 0, 0⟩
  atMount := used (mountDisk disk (fun _ => 0) TEMP_BITMAP_BLOCK 0)
  created := 0
  freed := fun _ => 0

/-- The same if both arrays were zero-filled. -/
def mountedOn (disk : Memory) : Mounted := mountedWith (fun _ => 0) disk

theorem mountedWith_start (TEMP_BITMAP_BLOCK disk : Memory) :
    MountedStart (mountedWith TEMP_BITMAP_BLOCK disk) := by
  obtain ⟨s', hinit⟩ := @sfsInit_isSome ⟨disk, [], 0, 0⟩ (fun _ => 0) TEMP_BITMAP_BLOCK 0 rfl
  refine ⟨fun _ => 0, TEMP_BITMAP_BLOCK, 0, ⟨disk, [], 0, 0⟩, rfl, ?_, by simp [mountedWith],
    rfl, rfl⟩
  rw [hinit, sfsInit_eq_some hinit]
  rfl

/-- A disk of an earlier mount. All inodes are in use, and inode 5 is a file `a` with data
block 600. -/
def crowdedDisk : Memory :=
  set (newInode (fun c => if c < 5000 then 1 else 0) (inodeAt 5) (chars "a") 0 5 0) (inodeAt 5)
    (block_ptr 0) 600

/-- The mount of this disk, where the array of the map block leaves inodes 4 to 13 free. -/
def crowded : Mounted := mountedWith (fun c => if 4 ≤ c ∧ c < 14 then 0 else 1) crowdedDisk

/-- Ten calls of `sfs_create` for `/ab`, which get inodes 4 to 13 and so use up the map. The
last one puts inode 5 into the first entry of the root, with the name that is on the disk. -/
def fillUp : List MountedCall :=
  [4, 13, 11, 12, 10, 9, 8, 7, 6, 5].map fun m =>
    .create sampleUnspecified (chars "/ab") 0 (m, m) 0

/-- The calls leave the number of entries at mount as it is. -/
theorem Mounted.next_atMount {s s' : Mounted} {e : MountedCall} (h : s.next e = some s') :
    s'.atMount = s.atMount := by
  cases e with
  | create u path fileMode rand now =>
    obtain ⟨_, _, rfl⟩ := Option.map_eq_some_iff.mp h
    rfl
  | unlink u path =>
    obtain ⟨_, _, rfl⟩ := Option.map_eq_some_iff.mp h
    rfl

/-- Files in the root have a parent that is not negative. -/
theorem fillUp_parent {s : Mounted} {e : MountedCall} (he : e ∈ fillUp) :
    ParentNotNegative s e := by
  obtain ⟨m, _, rfl⟩ := List.mem_map.mp he
  intro i d hslash hlookup
  obtain rfl : 0 = i := by
    have hzero : lastSlash (chars "/ab") (chars "/ab").length = some 0 := by decide +kernel
    exact Option.some.inj (hzero.symm.trans hslash)
  obtain rfl := Option.some.inj (sample_root.symm.trans hlookup)
  decide

/-- A crowded disk is mounted, ten files use up the inode map, and `sfs_unlink` removes one of
them: it frees its inode, and entries 512 to 1023 by wiping their block. With the 4990 inodes
at mount and the ten files there are 5000, so it is for the entries that were freed that the
test of the next call is exact. -/
theorem full_check_exact_removed : ∃ s, MountedReach s ∧ s.created = 10 ∧ 0 < s.freed .inode ∧
    CheckExact sampleUnspecified (chars "/ab") (5, 7) s.sfs := by
  have hrun : ((Runs.execAll Mounted.next fillUp crowded).bind fun s =>
      (s.next (.unlink sampleUnspecified (chars "/a"))).map fun t =>
        (t.created, s.sfs.disk 5, t.sfs.disk 5)) = some (10, 1, 0) := by decide +kernel
  obtain ⟨s, hfill, hrun⟩ := Option.bind_eq_some_iff.mp hrun
  obtain ⟨t, hunlink, heq⟩ := Option.map_eq_some_iff.mp hrun
  obtain ⟨hcreated, hbefore, hafter⟩ : t.created = 10 ∧ s.sfs.disk 5 = 1 ∧ t.sfs.disk 5 = 0 := by
    simpa using heq
  have hstart : MountedStart crowded := mountedWith_start _ _
  have hmount : crowded.atMount = used crowded.sfs.disk := by
    obtain ⟨_, _, _, _, _, _, hmount, _⟩ := hstart
    exact hmount
  have hfilled : MountedReach s ∧ s.atMount = crowded.atMount := by
    have hreach : Runs.Reach (· = crowded) (fun s e s' => s.next e = some s') ParentNotNegative s :=
      Runs.Reach.execAll (fun e he s s' hstep => ⟨fillUp_parent he, hstep⟩) (.start rfl) hfill
    refine hreach.invariant (P := fun s => MountedReach s ∧ s.atMount = crowded.atMount) ?_ ?_
    · rintro s rfl
      exact ⟨.start hstart, rfl⟩
    · rintro s e s' ⟨hs, hatMount⟩ hok hstep
      exact ⟨hs.step hok hstep, (Mounted.next_atMount hstep).trans hatMount⟩
  have hreach : MountedReach t := hfilled.1.step (e := .unlink _ _) trivial hunlink
  have hatMount : t.atMount = crowded.atMount := (Mounted.next_atMount hunlink).trans hfilled.2
  have hfreed : 0 < t.freed .inode := by
    have hlost : 0 < lost s.sfs.disk t.sfs.disk .inode := by
      refine lost_pos (n := 5) (by decide) hbefore ?_
      rw [show MapType.inode.entry 5 = 5 from rfl, hafter]
      decide
    obtain ⟨_, _, rfl⟩ := Option.map_eq_some_iff.mp hunlink
    exact Nat.add_pos_right _ hlost
  have hinode : used crowded.sfs.disk .inode + (Finset.Ico 4 14).card ≤ 5000 :=
    used_add_card_le _ (by decide +kernel)
  have hdata : used crowded.sfs.disk .data + (Finset.Ico 1 21).card ≤ 5000 :=
    used_add_card_le _ (by decide +kernel)
  rw [Nat.card_Ico] at hinode hdata
  refine ⟨t, hreach, hcreated, hfreed, ?_⟩
  apply (full_check_exact_iff t hreach sampleUnspecified (chars "/ab") (5, 7)).mpr
  rw [hcreated, hatMount, hmount]
  constructor
  · intro h
    cases h
  · intro _ type _
    cases type with
    | inode => omega
    | data => omega

/-- A disk on which all data blocks are in use, as earlier mounts may leave it. -/
def usedUp : Memory := fun c => if 10 * BLOCK_SIZE ≤ c ∧ c < 20 * BLOCK_SIZE then 1 else 0

/-- The first call after the mount of a disk without free data blocks searches their map,
and does not return. -/
theorem full_check_misses : MountedStart (mountedOn usedUp) ∧
    sfsCreate sampleUnspecified (chars "/ab") 0 (4, 7) 0 (mountedOn usedUp).sfs = none ∧
    ∃ s', Searches sampleUnspecified (chars "/ab") (4, 7) (mountedOn usedUp).sfs .data s' ∧
      Full s'.disk .data := by
  have hfull : Full (mountedOn usedUp).sfs.disk .data := by
    intro n hn
    have hlow : BLOCK_SIZE ≤ MapType.data.entry n := by
      simp only [MapType.entry, MapType.offset, BLOCK_SIZE]
      omega
    have hhigh : MapType.data.entry n < 20 * BLOCK_SIZE := entry_lt hn
    have hkept := @mountDisk_maps usedUp (fun _ => 0) (fun _ => 0) 0 _ hlow hhigh
    refine hkept.trans (if_pos ⟨?_, hhigh⟩)
    simp only [MapType.entry, MapType.offset, BLOCK_SIZE]
    omega
  have herrors : (mountedOn usedUp).sfs.errors = [] := rfl
  obtain ⟨s', hsearch⟩ : ∃ s',
      Searches sampleUnspecified (chars "/ab") (4, 7) (mountedOn usedUp).sfs .data s' := by
    have hdir : getInodeNumbFromPath sampleUnspecified
        (substring sampleUnspecified (chars "/ab") 0 0) (mountedOn usedUp).sfs =
          some (0, (mountedOn usedUp).sfs) := by
      rw [getInodeNumbFromPath_eq herrors, sample_root]
      rfl
    have hread := @getBlockByInodeNumb_eq sampleUnspecified _ 0 herrors (by decide)
    rw [if_pos (by decide)] at hread
    have hfree : (mountedOn usedUp).sfs.disk (MapType.inode.entry 4) ≠ 1 := by decide +kernel
    obtain ⟨m, hm, hfirst, hinode⟩ :=
      getFreeBitMapEntry_eq 4 herrors (.inl (by decide)) (by decide) hfree
    have hread' := @getBlockByInodeNumb_eq sampleUnspecified
      ⟨Function.update (mountedOn usedUp).sfs.disk (MapType.inode.entry m) 1, [], 1, 0⟩ m rfl
      (by omega)
    rw [if_pos (readable_of_lt hm)] at hread'
    exact ⟨_, .data (by decide) (by decide +kernel) hdir hread
      (show openChildSpace _ _ = some 9 by decide +kernel) hinode hread' (by decide +kernel)⟩
  obtain ⟨_, hsame⟩ := hsearch.same herrors
  have hfull' : Full s'.disk .data := fun n hn => (hsame n hn).trans (hfull n hn)
  exact ⟨mountedWith_start _ _, hsearch.not_returns herrors hfull', s', hsearch, hfull'⟩

end SimpleOs.Files
