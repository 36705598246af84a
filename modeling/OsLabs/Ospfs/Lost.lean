import OsLabs.Ospfs.Boot
import OsLabs.Ospfs.Namespace

/-!
# OSPFS: lost inodes

`ospfs_create` and `ospfs_symlink` count a link before they look for a blank entry. When the
directory cannot grow, the inode keeps the link that no entry stands for, and is lost. Runs in
which every directory has room for the name, or the call is refused before, keep the link counts
exact (`nameRuns_linksExact`).
-/

namespace OsLabs.Ospfs

open BlockProg Volume

variable {o : Options} {g : Geometry} {S : Nat → Prop} {m m' w : Mem} {lost : Finset Nat}
  {d i ino : Nat} {name : Bytes} {r : Ret}

/-! ## Room -/

/-- The directory has a blank entry, or the blocks for eight more and starts no new table. -/
def HasRoom (m : Mem) (d : Nat) : Prop :=
  Crowded m d → NoNewTable (fileBlocks m d) (fileBlocks m d + 8) ∧
    blocksTo m (inodeAddr d) (fileBlocks m d) (fileBlocks m d + 8) ≤ freeBlocks m

theorem Tidy.indirect_ne_zero (h : Tidy g S m) (hs : S ino) (hn : 10 < fileBlocks m ino) :
    oiIndirect m (inodeAddr ino) ≠ 0 := by
  intro hz
  refine h.mapped ino hs 10 hn ?_
  rw [ptr, if_neg (by omega), if_pos (by omega), hz]
  exact if_pos rfl

/-- With blocks enough, every `add_block` has room. -/
theorem Tidy.eachAdd_room {newSize fuel : Nat} (h : Tidy g S m) (hs : S ino)
    (hno : NoNewTable (fileBlocks m ino) (ospfsSize2nblocks newSize))
    (hroom : blocksTo m (inodeAddr ino) (fileBlocks m ino) (ospfsSize2nblocks newSize) ≤
      freeBlocks m) :
    eachAdd (fun m oi => addNeeds m oi ≤ freeBlocks m) (inodeAddr ino) newSize fuel m := by
  induction fuel generalizing m with
  | zero => trivial
  | succ fuel ih =>
    intro hlt
    change fileBlocks m ino < _ at hlt
    have hl := h.linked hs (hno _ (Nat.le_refl _) hlt)
    have hind := h.indirect_ne_zero hs
    have hunder := h.nextUnder_ne_zero hs
    have hnext := hno _ (Nat.le_refl _) hlt
    have hneeds : addNeeds m (inodeAddr ino) = if fileBlocks m ino < 10 then 1
        else if fileBlocks m ino < 266 then if oiIndirect m (inodeAddr ino) = 0 then 2 else 1
        else if nextUnder m (inodeAddr ino) = 0 then 2 else 1 := rfl
    unfold blocksTo at hroom
    refine ⟨by grind, fun hok => ?_⟩
    rcases h.addBlock hs hl with ⟨-, hcount, hadd, hkeep⟩ | ⟨herr, -, -⟩
    · have hblocks := hadd.blocks
      refine ih hadd.tidy (fun i hi hi' => hno i (by omega) hi') ?_
      have hind' := hadd.tidy.indirect_ne_zero hs
      unfold blocksTo
      grind
    · rw [herr] at hok
      cases hok

theorem Standing.blankEntry_room (h : Standing g m) (hd : d < g.ninodes) (hdir : IsDir m d)
    (hroom : HasRoom m d) :
    Ospfs.createBlankDirentry m (inodeAddr d) ≠ some (.error .eNoSpc, m') := by
  intro hrun
  have hok := h.dirOk hd hdir
  have hwhole := hok.whole
  have hsmall := h.tidy.fileBlocks_small hok.mem
  have hblocks := hok.blocks
  have hcrowded : Crowded m d := by
    rcases h.tidy.scan hok (fun od => odIno m od == 0) with ⟨-, hall⟩ | ⟨j, -, -, -, hscan⟩
    · exact fun k hk => by simpa using hall k hk
    · unfold Ospfs.createBlankDirentry at hrun
      rw [hscan] at hrun
      cases hrun
  obtain ⟨hno, hfree⟩ := hroom hcrowded
  have hmod : (oiSize m (inodeAddr d) + 8192) % 2 ^ 32 = oiSize m (inodeAddr d) + 8192 := by omega
  have hnew : ospfsSize2nblocks (oiSize m (inodeAddr d) + 8192) = fileBlocks m d + 8 := by
    rw [hblocks]
    unfold ospfsSize2nblocks
    omega
  have hcall := createBlankDirentry_error hrun
  rw [hmod] at hcall
  rw [← hnew] at hno hfree
  obtain ⟨r, m₁, hrun', hout⟩ :=
    h.tidy.changeSize hok.mem (by omega) (h.tidy.growLinked hok.mem hno)
  cases hcall.symm.trans hrun'
  rcases hout with ⟨he, -⟩ | ⟨-, hfull, -⟩
  · cases he
  · exact hfull (h.tidy.eachAdd_room hok.mem hno hfree)

/-- Setting up an inode leaves the room of the directories. -/
theorem Standing.hasRoom_of_inode (h : Standing g m) (hset : SetUp g ino m w) (hd : d < g.ninodes)
    (hdir : IsDir m d) (hroom : HasRoom m d) : HasRoom w d := by
  have hne : d ≠ ino := by
    rintro rfl
    exact hset.free hdir
  have hge := inodeAddr_ge ino
  have hsame : SameInode m w d := .of_others hset.others hne
  have hind : oiIndirect w (inodeAddr d) = oiIndirect m (inodeAddr d) :=
    hsame.word (c := 56) (by omega)
  have hfree : freeBlocks w = freeBlocks m :=
    h.tidy.freeBlocks_low fun x hx => hset.others x (by omega)
  unfold HasRoom blocksTo fileBlocks
  rw [h.crowded_of_inode hset.lt hd hdir hne hset.others, hsame.size, hind, hfree]
  exact hroom

/-! ## Calls -/

/-- A created name fits its entry. -/
def NameCall.Fits : NameCall → Prop
  | create name _ _ => name.length ≤ 123
  | symlink _ _ _ | link _ _ => True

/-- What the kernel sees to, with names of any length. -/
def DirCall.Handed (m : Mem) : DirCall → Prop
  | enter dirIno (.create _ _ _) => IsDirectory m dirIno
  | c => c.Issued m

/-- The call is refused, or its name fits and its directory starts no new table. -/
def DirCall.Tame (m : Mem) : DirCall → Prop
  | enter dirIno c => ∀ oi, ospfsInode m dirIno = some oi →
      c.Refused m oi ∨ (c.Fits ∧ StaysInTables m dirIno)
  | unlink _ _ _ => True

/-- The call is refused, or a name that fits its entry gets one: a new file's from a directory with
room, a link's from one that starts no new table. -/
def DirCall.Housed (m : Mem) : DirCall → Prop
  | enter dirIno c => ∀ oi, ospfsInode m dirIno = some oi → c.Refused m oi ∨
    match c with
    | .create name _ _ => name.length ≤ 123 ∧ HasRoom m dirIno
    | .symlink _ _ _ => HasRoom m dirIno
    | .link _ _ => StaysInTables m dirIno
  | unlink _ _ _ => True

theorem HasRoom.staysInTables (h : HasRoom m d) : StaysInTables m d := fun hc => (h hc).1

theorem DirCall.Housed.tame {c : DirCall} (h : c.Housed m) : c.Tame m := by
  cases c with
  | unlink d name i => trivial
  | enter d c =>
    intro oi hoi
    refine (h oi hoi).imp_right fun h => ?_
    cases c with
    | create name mode newInode => exact ⟨h.1, h.2.staysInTables⟩
    | symlink name symname newInode => exact ⟨trivial, HasRoom.staysInTables h⟩
    | link i name => exact ⟨trivial, h⟩

theorem DirCall.Handed.issued {c : NameCall} (h : (DirCall.enter d c).Handed m) (hc : c.Fits) :
    (DirCall.enter d c).Issued m := by
  cases c with
  | create name mode newInode => exact ⟨h, hc⟩
  | symlink name symname newInode => exact h
  | link i name => exact h

theorem DirCall.Handed.isDirectory {c : NameCall} (h : (DirCall.enter d c).Handed m) :
    IsDirectory m d := by
  cases c with
  | create name mode newInode => exact h
  | symlink name symname newInode => exact h.1
  | link i name => exact h.1

/-- **One call** counts its links, but for an inode that finds no room. -/
theorem Tallied.step (h : Tallied g m lost) {c : DirCall} (hi : c.Handed m) (hcur : c.Current m)
    (hc : c.Tame m) (hrun : c.run m = some (r, m')) :
    ∃ lost', Tallied g m' lost' ∧ (c.Housed m → lost' = lost) := by
  cases c with
  | unlink d name i =>
    obtain ⟨hd, hdir⟩ := h.standing.isDirectory_iff.1 hi.1
    obtain ⟨k, hk, hscan, hent⟩ := h.looked_up hd hdir hcur.1 hcur.2
    obtain ⟨-, hlt, -⟩ := h.named hd hent
    have hnd : ¬ IsDir m i := fun h' => hi.2 (h.standing.isDirectory_iff.2 ⟨hlt, h'⟩)
    obtain ⟨m₁, hrun', hu⟩ := h.standing.unlink_spec hd hdir hlt hnd hk hscan
    cases hrun.symm.trans hrun'
    exact ⟨lost, h.unlink hd hdir hk hnd hent hu, fun _ => rfl⟩
  | enter d c =>
    obtain ⟨hd, hdir⟩ := h.standing.isDirectory_iff.1 hi.isDirectory
    have hoi := h.standing.tidy.ospfsInode hd
    by_cases href : c.Refused m (inodeAddr d)
    · obtain ⟨e, hrun'⟩ := href.run hoi
      cases hrun.symm.trans hrun'
      exact ⟨lost, h, fun _ => rfl⟩
    obtain ⟨hfits, hno⟩ := (hc _ hoi).resolve_left href
    have hcreates {init : Nat → Mem} (hlen : c.name.length ≤ 123) (hz : 0 ∉ c.name)
        (hinit : ∀ ino, FreeInode g m ino → Prepared g ino m (init ino))
        (hr : Creates g d c.name init m r m') (hroom : (DirCall.enter d c).Housed m → HasRoom m d) :
        ∃ lost', Tallied g m' lost' ∧ ((DirCall.enter d c).Housed m → lost' = lost) := by
      rcases h.creates hd hlen hz hinit hr with h' | ⟨ino, m₁, hfree, h', hblank⟩
      · exact ⟨lost, h', fun _ => rfl⟩
      refine ⟨insert ino lost, h', fun hhoused => absurd hblank ?_⟩
      have hp := hinit ino hfree
      obtain ⟨hw, -⟩ := h.setUp hfree.nlink hfree.two_le hp
      have hne : d ≠ ino := by
        rintro rfl
        exact hfree.plain hdir
      exact hw.standing.blankEntry_room hd ((SameInode.of_others hp.setUp.others hne).isDir.2 hdir)
        (h.standing.hasRoom_of_inode hp.setUp hd hdir (hroom hhoused))
    cases c with
    | create name mode newInode =>
      obtain ⟨r', m₁, hrun', hcr, -⟩ := h.standing.create_spec hd hdir hno hfits mode newInode
      cases hrun.symm.trans hrun'
      exact hcreates hfits hcur (fun _ hfree => hfree.initFile mode) hcr
        fun hhoused => ((hhoused _ hoi).resolve_left href).2
    | symlink name symname newInode =>
      obtain ⟨r', m₁, hrun', hcase, -⟩ := h.standing.symlink_spec hd hdir hno name symname newInode
      cases hrun.symm.trans hrun'
      rcases hcase with ⟨-, -, rfl⟩ | ⟨hlen, hlen', hcr⟩
      · exact ⟨lost, h, fun _ => rfl⟩
      · exact hcreates hlen hcur (fun _ hfree => hfree.initSymlink hlen') hcr
          fun hhoused => (hhoused _ hoi).resolve_left href
    | link i name =>
      obtain ⟨hz, d', nm, hdir', hz', hl⟩ := hcur
      obtain ⟨hd', hdd'⟩ := h.standing.isDirectory_iff.1 hdir'
      obtain ⟨k, -, -, hent⟩ := h.looked_up hd' hdd' hz' hl
      obtain ⟨h2, hlt, -⟩ := h.named hd' hent
      have hnd : ¬ IsDir m i := fun h' => hi.2 (h.standing.isDirectory_iff.2 ⟨hlt, h'⟩)
      obtain ⟨r', m₁, hrun', hlk⟩ := h.standing.link_spec hd hdir hno name hlt
      cases hrun.symm.trans hrun'
      exact ⟨lost, h.link hd hdir hz h2 hlt hnd hlk, fun _ => rfl⟩

/-! ## Runs -/

/-- The entries that name an inode. -/
def namers (m : Mem) (i : Nat) : Set (Nat × Nat) :=
  {p | IsDirectory m p.1 ∧ (dirent m p.1 p.2).map Prod.snd = some i}

/-- Every file and symbolic link has as many links as there are entries that name it, and is free
exactly when there is none. -/
def LinksExact (m : Mem) : Prop :=
  ∀ i oi, 2 ≤ i → ospfsInode m i = some oi → oiFtype m oi ≠ ftypeDir →
    oiNlink m oi = (namers m i).ncard ∧ (oiNlink m oi = 0 ↔ namers m i = ∅)

theorem Tallied.namers (h : Tallied g m lost) (i : Nat) :
    namers m i = ↑((positions g).filter fun e => NamesIno m i e.1 e.2) := by
  ext p
  rw [Finset.coe_filter, Set.mem_ofPred_eq]
  constructor
  · rintro ⟨hdir, hp⟩
    obtain ⟨v, hv, -⟩ := Option.map_eq_some_iff.1 hp
    exact ⟨h.position (h.standing.isDirectory_iff.1 hdir).1 hv, hp⟩
  · rintro ⟨hpos, hp⟩
    have hd := Finset.mem_range.1 (Finset.mem_product.1 hpos).1
    obtain ⟨v, hv, -⟩ := Option.map_eq_some_iff.1 hp
    exact ⟨h.standing.isDirectory_iff.2 ⟨hd, (dirent_lt hv).1⟩, hp⟩

theorem Tallied.linksExact (h : Tallied g m ∅) : LinksExact m := by
  intro i oi h2 hoi hnd
  obtain ⟨hi, rfl⟩ := h.standing.tidy.of_ospfsInode hoi
  have hlinks := h.links i h2 hi hnd
  have hcard : (Ospfs.namers m i).ncard = linkCount g m i := by
    rw [h.namers, Set.ncard_coe_finset]
    rfl
  rw [if_neg (Finset.notMem_empty i), Nat.add_zero] at hlinks
  refine ⟨hlinks.trans hcard.symm, ?_⟩
  rw [hlinks, h.namers, Finset.coe_eq_empty]
  exact Finset.card_eq_zero

/-- The calls and their results, from an image. -/
def nameRuns (o : Options) : System Mem (DirCall × Ret) where
  Init m := ∃ st, formatted o = some (st, m)
  Step m c m' := c.1.Handed m ∧ c.1.Current m ∧ c.1.run m = some (c.2, m')

/-- **Link counts are exact** in every run whose calls are refused or have room for their names. -/
theorem nameRuns_linksExact {calls : List (DirCall × Ret)}
    (h : (nameRuns o).RunIf (fun m c => c.1.Housed m) calls m) : LinksExact m := by
  have hinv : ∃ g, Tallied g m ∅ := by
    refine h.inv (I := fun _ m => ∃ g, Tallied g m ∅) ?_ ?_
    · rintro m ⟨st, hf⟩
      obtain ⟨g, mc, -, himg⟩ := formatted_fits hf
      exact ⟨g, himg.tallied⟩
    · rintro calls m ⟨c, r⟩ m' ⟨g, hc⟩ hhoused ⟨hi, hcur, hrun⟩
      obtain ⟨lost', hc', hlost⟩ := hc.step hi hcur hhoused.tame hrun
      exact ⟨g, hlost hhoused ▸ hc'⟩
  obtain ⟨g, hc⟩ := hinv
  exact hc.linksExact

/-! ## Two runs -/

instance (m : Mem) : DecidablePred (DirCall.Handed m)
  | .enter _ (.create _ _ _) => inferInstanceAs (Decidable (IsDirectory _ _))
  | .enter _ (.symlink _ _ _) => inferInstanceAs (Decidable (_ ∧ _))
  | .enter _ (.link _ _) => inferInstanceAs (Decidable (_ ∧ _))
  | .unlink _ _ _ => inferInstanceAs (Decidable (_ ∧ _))

/-- `Housed` for the calls that make a file while entry 7 is blank, or remove a name. -/
def housedCheck (m : Mem) : DirCall → Bool
  | .enter dirIno (.create name _ _) =>
    decide (name.length ≤ 123 ∧ 7 < entries m dirIno ∧ odIno m (entryAddr m dirIno 7) = 0)
  | .enter _ _ => false
  | .unlink _ _ _ => true

theorem housed_of_check {c : DirCall} (h : housedCheck m c = true) : c.Housed m := by
  cases c with
  | unlink d name i => trivial
  | enter d c =>
    cases c with
    | create name mode newInode =>
      obtain ⟨hlen, hk, hblank⟩ := of_decide_eq_true h
      exact fun _ _ => .inr ⟨hlen, fun hcrowded => absurd hblank (hcrowded 7 hk)⟩
    | symlink name symname newInode => cases h
    | link i name => cases h

/-- Entering `a` and `b`, removing `a`, and entering a name, which gets `a`'s inode. -/
def entering (name : Bytes) : List (DirCall × Ret) :=
  [(.enter 1 (.create [97] 420 true), .ok ()), (.enter 1 (.create [98] 420 true), .ok ()),
    (.unlink 1 [97] 4, .ok ()), (.enter 1 (.create name 420 true), .ok ())]

/-- The calls one after the other, each checked before. -/
def performAll (check : Mem → DirCall → Bool) (m : Mem) (calls : List (DirCall × Ret)) :
    Option Mem :=
  System.execIf (fun m c => decide (c.1.Handed m) && currentCheck m c.1 && check m c.1) perform m
    calls

theorem runIf_of_performAll {M : System Mem (DirCall × Ret)} {G : Mem → DirCall × Ret → Prop}
    {check : Mem → DirCall → Bool} {calls : List (DirCall × Ret)}
    (hM : ∀ m c m', c.1.Handed m ∧ c.1.Current m ∧ c.1.run m = some (c.2, m') → M.Step m c m')
    (hG : ∀ m c, check m c.1 = true → G m c) (hi : M.Init m)
    (h : performAll check m calls = some m') : M.RunIf G calls.reverse m' := by
  refine System.runIf_of_execIf ?_ hi h
  intro m c m' hc hr
  obtain ⟨hc, hcheck⟩ := Bool.and_eq_true_iff.1 hc
  obtain ⟨hi, hcur⟩ := Bool.and_eq_true_iff.1 hc
  obtain ⟨⟨r, m''⟩, hrun, hr⟩ := Option.bind_eq_some_iff.1 hr
  split at hr
  · rename_i hres
    cases hr
    obtain rfl : r = c.2 := hres
    exact ⟨hG m c hcheck, hM m c m'' ⟨of_decide_eq_true hi, current_of_check hcur, hrun⟩⟩
  · cases hr

theorem nameRuns_linksExact_entering : ∃ m,
    (nameRuns helloOptions).RunIf (fun m c => c.1.Housed m) (entering [99]).reverse m ∧
    ospfsDirLookup m 1 [99] true = some (.ok (some 4)) ∧ LinksExact m := by
  have hsome : (formatted helloOptions).any (fun r =>
      (performAll housedCheck r.2 (entering [99])).any fun m => decide (
        ospfsDirLookup m 1 [99] true = some (.ok (some 4)))) = true := by decide +kernel
  obtain ⟨⟨st, m₀⟩, hf, hsome⟩ := (Option.any_eq_true _ _).1 hsome
  obtain ⟨m, hm, hlookup⟩ := (Option.any_eq_true _ _).1 hsome
  have hrun : (nameRuns helloOptions).RunIf (fun m c => c.1.Housed m) (entering [99]).reverse m :=
    runIf_of_performAll (fun _ _ _ h => h) (fun _ _ => housed_of_check) ⟨st, hf⟩ hm
  exact ⟨m, hrun, of_decide_eq_true hlookup, nameRuns_linksExact hrun⟩

/-! ## A directory that cannot grow -/

/-- An empty tree on six blocks; four of them are in front of the data. -/
def tinyOptions : Options := ⟨6, 3, false, [], .recursive .nil⟩

theorem formatted_tiny : ∃ m, formatted tinyOptions = some (⟨4, 2, []⟩, m) := by
  have hopen : Ends 6 (opendisk tinyOptions) ⟨0, 0, []⟩ ⟨4, 0, []⟩ :=
    opendisk_ends (o := tinyOptions) (by decide) (by decide) (by decide)
  have halloc (i : Nat) (hi : i < 3) :
      Ends 6 (allocinode tinyOptions) ⟨4, i, []⟩ ⟨4, i + 1, []⟩ := by
    refine .getGlobals ?_
    split
    · next hlast => exact absurd hlast (Nat.ne_of_lt hi)
    · refine .bind .setGlobals fun _ => .bind (.getBlock ?_) fun _ => .pure _
      change 2 + 1 + i / 16 < 6
      omega
  have hfin : Ends 6 (finishfs tinyOptions) ⟨4, 2, []⟩ ⟨4, 2, []⟩ :=
    finishfs_ends (o := tinyOptions) (by decide) (by decide) (by decide)
  have hmain : Ends 6 (main tinyOptions) ⟨0, 0, []⟩ ⟨4, 2, []⟩ :=
    .bind hopen fun _ => .bind (halloc 0 (by decide)) fun _ => .bind .storeWord fun _ =>
      .bind .putBlock fun _ => .bind (halloc 1 (by decide)) fun _ => .bind .storeWord fun _ =>
      .bind .storeWord fun _ => .bind .storeWord fun _ => .bind (.pure ()) fun _ =>
      .bind (.pure ()) fun _ => .bind .putBlock fun _ => hfin
  obtain ⟨u, m, hrun⟩ := hmain fun _ => 0
  exact ⟨m, congrArg (Option.map Prod.snd) hrun⟩

theorem Image.emptyRoot {st : Globals} {mc : Mem} (h : Image g st mc m) (hroot : IsDir m 1)
    (hnext : st.nextb = g.firstdata) : fileBlocks m 1 = 0 := by
  have hlt : 1 < g.ninodes := by
    have := h.inodes
    omega
  have hok := h.standing.dirOk hlt hroot
  by_contra hne
  have hfile : Files g m 1 := ⟨hlt, fun hsym => absurd (hroot.symm.trans hsym) (by decide)⟩
  have hused := (h.exact 1 (.leaf 0) hfile).2 (Nat.pos_of_ne_zero hne)
  have hrefers : Refers g m (1, .leaf 0) _ := ⟨hfile, rfl⟩
  rw [own_of_mem hfile] at hused
  have := h.refers_data hrefers hused
  omega

/-- A lost inode has a link that no entry stands for. -/
theorem Tallied.not_linksExact (h : Tallied g m lost) (hl : ino ∈ lost) (h2 : 2 ≤ ino)
    (hi : ino < g.ninodes) (hnd : ¬ IsDir m ino) : ¬ LinksExact m := by
  intro hexact
  obtain ⟨hcount, -⟩ := hexact ino _ h2 (h.standing.tidy.ospfsInode hi) hnd
  have hlinks := h.links ino h2 hi hnd
  rw [if_pos hl] at hlinks
  have hcard : (Ospfs.namers m ino).ncard = linkCount g m ino := by
    rw [h.namers, Set.ncard_coe_finset]
    rfl
  omega

theorem nameRuns_lost : ∃ m, (nameRuns tinyOptions).Run
    [(.enter 1 (.create [97] 420 true), .error .eNoSpc)] m ∧ ¬ LinksExact m := by
  obtain ⟨m, hf⟩ := formatted_tiny
  obtain ⟨g, mc, hg, himg, hroot⟩ := formatted_root hf
  have hn : g.nblocks = 6 := hg.nblocks
  have hi : g.ninodes = 3 := hg.ninodes
  have hempty := himg.emptyRoot hroot (by show 4 = _; unfold Geometry.firstdata; omega)
  have hc := himg.tallied
  have hd : 1 < g.ninodes := by omega
  have hz : (0 : UInt8) ∉ [97] := by decide
  have hok := hc.standing.dirOk hd hroot
  have hwhole := hok.whole
  have hblocks := hok.blocks
  have hsize : oiSize m (inodeAddr 1) = 0 := by omega
  have hno : StaysInTables m 1 := by
    intro _
    rw [hempty]
    exact fun i _ hi => .inl (by omega)
  have hlen : ([97] : Bytes).length ≤ 123 := by decide
  obtain ⟨r, m', hrun, hcr, -⟩ := hc.standing.create_spec hd hroot hno hlen 420 true
  have hnone : (findDirentry m (inodeAddr 1) [97]).isSome = false := by
    rcases hc.scan_first hd hroot hz with ⟨hscan, -⟩ | ⟨k, _, -, hk, -⟩
    · exact congrArg Option.isSome hscan
    · unfold entries at hk
      omega
  have hrun₁ : (nameRuns tinyOptions).Run [(.enter 1 (.create [97] 420 true), r)] m' :=
    .step (.init ⟨_, hf⟩) trivial ⟨hc.standing.isDirectory_iff.2 ⟨hd, hroot⟩, hz, hrun⟩
  cases hcr with
  | taken hfound =>
    rw [hnone] at hfound
    cases hfound
  | exhausted _ hall =>
    exact absurd (himg.fresh_word (Nat.le_refl 2) (by omega) (by omega))
      (hall 2 (Nat.le_refl 2) (by omega))
  | @full ino _ _ _ hfree he =>
    have hp := hfree.initFile (m := m) 420
    obtain ⟨hw, -⟩ := hc.setUp hfree.nlink hfree.two_le hp
    cases he with
    | full _ ht hs =>
      refine ⟨m', hrun₁, (hw.congr ht.standing hs).not_linksExact (Finset.mem_insert_self ino ∅)
        hfree.two_le hfree.lt fun hdir => hp.setUp.plain ?_⟩
      exact (isDir_congr (hs.ftypes ino hfree.lt)).1 hdir
  | @entered ino _ _ _ _ hfree he _ =>
    have hp := hfree.initFile (m := m) 420
    have hne : 1 ≠ ino := by
      have := hfree.two_le
      omega
    have hsame := (SameInode.of_others hp.setUp.others hne).size.trans hsize
    cases he with
    | @entered m₁ k hblank ht _ _ _ =>
      have hno : NoBlank (initFile m (inodeAddr ino) 420) (inodeAddr 1) := by
        intro k hk
        unfold direntries at hk
        omega
      obtain ⟨-, hsize₁, -⟩ := hno.cases hblank
      have hok₁ := ht.standing.dirOk hd ht.isDir
      have hblocks₁ := hok₁.blocks
      have hle := ht.standing.tidy.fileBlocks_le hok₁.mem
      omega

end OsLabs.Ospfs
