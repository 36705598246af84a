import OsLabs.Ospfs.Finish
import OsLabs.Ospfs.Links

/-!
# OSPFS: hard links on a formatted disk

Which names of a formatted disk are names of one inode, as the module's lookup finds them.
The formatter compares the host's inode numbers with what `host_ino` keeps of them, 32 bits:
two names of one file may part, and names of two files may meet. `hardLinksPreserved_iff`
says on which trees neither happens.
-/

namespace OsLabs.Ospfs

open BlockProg

variable {o : Options} {g : Geometry} {st : Globals} {m m' mf : Mem} {d i : Nat} {name : Bytes}
  {s : Numbering Nat} {dir : HostDir}

/-! ## Paths -/

/-- The inode that a path leads to from directory `dirIno` on, by `ospfs_dir_lookup`. -/
def namei (m : Mem) (dirIno : Nat) : List Bytes → Option Nat
  | [] => some dirIno
  | name :: path =>
    match ospfsDirLookup m dirIno name true with
    | some (.ok (some ino)) => namei m ino path
    | _ => none

theorem Image.lookupMatches_iff (h : Image g st m mf) (hd : d < g.ninodes) (hdir : IsDir mf d)
    {k : Nat} (hk : k < entries mf d) (hz : 0 ∉ name) :
    lookupMatches mf name (entryAddr mf d k) = true ↔
      dirent mf d k = some (name, odIno mf (entryAddr mf d k)) := by
  rw [lookupMatches_eq, dirent_of_isDir hdir hk]
  by_cases h0 : odIno mf (entryAddr mf d k) = 0
  · refine iff_of_false (fun hm => ?_) ?_
    · unfold findMatches at hm
      rw [h0] at hm
      cases hm
    · rw [if_neg (not_not.2 h0)]
      exact nofun
  have hent := (dirent_of_isDir hdir hk).trans (if_pos h0)
  rw [findMatches_iff (h.tree.names d k _ _ hd hent).1 hz, if_pos h0, Option.some.injEq,
    Prod.mk.injEq, and_iff_right h0, and_iff_left rfl]

theorem Image.dirLookup (h : Image g st m mf) (hd : d < g.ninodes) (hn : Names mf d name i) :
    ospfsDirLookup mf d name true = some (.ok (some i)) := by
  obtain ⟨k, hk, hfirst⟩ := hn
  obtain ⟨hdir, hlt, -, hv⟩ := dirent_lt hk
  obtain ⟨hlen, hz, -, hi⟩ := h.tree.names d k name i hd hk
  have hkinds := h.tree.kinds i hi
  have hino : odIno mf (entryAddr mf d k) = i := (congrArg Prod.snd hv).symm
  have hmatch : lookupMatches mf name (entryAddr mf d k) = true :=
    (h.lookupMatches_iff hd hdir hlt hz).2 (by rw [hino]; exact hk)
  unfold ospfsDirLookup
  rw [h.tidy.ospfsInode hd, Option.bind_eq_bind, Option.bind_some, if_neg (by omega)]
  rcases h.tidy.scan (h.tree.dirOk hd hdir) (lookupMatches mf name) with
    ⟨-, hall⟩ | ⟨j, hj, ht, hbefore, hscan⟩
  · have hno := hall k hlt
    rw [hmatch] at hno
    cases hno
  · have hle : j ≤ k := by
      refine Nat.le_of_not_lt fun hkj => ?_
      have hno := hbefore k hkj
      rw [hmatch] at hno
      cases hno
    have he := hfirst j hle _ ((h.lookupMatches_iff hd hdir hj hz).1 ht)
    rw [hscan]
    simp only [he]
    unfold ospfsMkLinuxInode
    rw [h.tidy.ospfsInode hi]
    have hkind : oiFtype mf (inodeAddr i) = ftypeReg ∨ oiFtype mf (inodeAddr i) = ftypeDir ∨
        oiFtype mf (inodeAddr i) = ftypeSymlink := by
      unfold ftypeReg ftypeDir ftypeSymlink at *
      omega
    simp only [Bool.not_true, Bool.false_eq_true, if_false, if_pos hkind]
    rfl

/-- The names of a host directory lead to the inodes that they are numbered by. -/
theorem Leads.namei {lo hi : Nat} (h : Image g st m mf) (hhi : hi ≤ g.ninodes) (dir : HostDir) :
    ∀ {d : Nat} {s : Numbering Nat}, d < g.ninodes → Leads mf lo hi dir d s → ∀ a n,
      (some a, n) ∈ dir.visits.zip (s.nums hostIno32 dir.keys) →
      Ospfs.namei mf d a.path = some n := by
  have hone {d n : Nat} {name : Bytes} (hd : d < g.ninodes) (hn : Names mf d name n) :
      Ospfs.namei mf d [name] = some n := by
    rw [Ospfs.namei, h.dirLookup hd hn]
    rfl
  induction dir with
  | nil =>
    intro d s _ _ a n hmem
    cases hmem
  | file f rest ih =>
    intro d s hd hl a n hmem
    rcases List.mem_cons.1 hmem with heq | hmem
    · cases heq
      exact hone hd hl.1
    · exact ih hd hl.2 a n hmem
  | directory name mode sub rest ihs ihr =>
    intro d s hd hl a n hmem
    rw [Leads] at hl
    rw [HostDir.visits, HostDir.keys_directory] at hmem
    by_cases hskip : skipped name = true
    · rw [if_pos hskip] at hl
      rw [if_pos hskip, if_pos hskip] at hmem
      exact ihr hd hl a n hmem
    rw [if_neg hskip] at hl
    rw [if_neg hskip, if_neg hskip] at hmem
    obtain ⟨-, hlt, hn, hls, hlr⟩ := hl
    have hlen : (sub.visits.map (Option.map (HostName.under name))).length =
        (Numbering.nums hostIno32 (s.number hostIno32 none).2 sub.keys).length := by
      rw [List.length_map, Numbering.length_nums, HostDir.keys, List.length_map]
    rw [Numbering.nums, List.zip_cons_cons, Numbering.nums_append, List.zip_append hlen,
      List.zip_map_left, List.mem_cons, List.mem_append, List.mem_map] at hmem
    rcases hmem with heq | ⟨⟨v, n'⟩, hv, heq⟩ | hmem
    · cases heq
    · cases v with
      | none => cases heq
      | some b =>
        cases heq
        show Ospfs.namei mf d (name.val :: b.path) = _
        rw [Ospfs.namei, h.dirLookup hd hn]
        exact ihs (Nat.lt_of_lt_of_le hlt hhi) hls b _ hv
    · exact ihr hd hlr a n hmem
  | symlink name stNlink stIno target rest ih =>
    intro d s hd hl a n hmem
    rw [Leads] at hl
    rw [HostDir.visits, HostDir.keys_symlink] at hmem
    by_cases hlen : target.val.length > 51
    · rw [if_pos hlen] at hl
      rw [if_pos hlen, if_pos hlen] at hmem
      exact ih hd hl a n hmem
    rw [if_neg hlen] at hl
    rw [if_neg hlen, if_neg hlen] at hmem
    rcases List.mem_cons.1 hmem with heq | hmem
    · cases heq
      exact hone hd hl.1
    · exact ih hd hl.2 a n hmem
  | other rest ih => exact ih
  | unreadable rest ih => exact ih

/-! ## The numbers on a formatted disk -/

def HostDir.key (dir : HostDir) (t : Nat) : Option Nat := dir.keys[t]?.join

def HostDir.number (dir : HostDir) (t : Nat) : Nat := Numbering.num hostIno32 dir.key 2 t

theorem HostDir.key_of_visit {t : Nat} {a : HostName} (ht : dir.visits[t]? = some (some a)) :
    dir.key t = a.key := by
  unfold key keys
  rw [List.getElem?_map, ht]
  rfl

/-- The options copy the directory `dir` of the host, without `-c`. -/
structure Plain (o : Options) (dir : HostDir) : Prop where
  source : o.source = .recursive dir
  linkContents : o.linkContents = false
  distinct : dir.Distinct

theorem formatted_leads (h : formatted o = some (st, m)) (ho : Plain o dir) :
    ∃ (g : Geometry) (mc : Mem), Image g st mc m ∧ Leads m 2 st.nextinode dir 1 ⟨2, []⟩ := by
  have hbody : ∀ g, Fits o g → ∀ mf, Image g ⟨g.firstdata, 2, []⟩ rootDisk mf → IsDir mf 1 →
      (∀ k, dirent mf 1 k = none) →
      (writeSource o (inodeAddr 1)).wlp g.nblocks (fun _ st' m' => ∃ mf', Image g st' m' mf' ∧
        Leads mf' 2 st'.nextinode dir 1 ⟨2, []⟩) ⟨g.firstdata, 2, []⟩ rootDisk := by
    intro g hg mf himg hdir hempty
    have h1 : 1 < g.ninodes := by
      have := himg.inodes
      omega
    unfold writeSource
    rw [ho.source]
    simp only [wlp_bind]
    have htakes : Takes mf 1 dir.names := .of_empty hempty _
    refine wlp_mono (Image.writedirectory_links hg ho.linkContents dir himg h1 hdir ho.distinct
      htakes) ?_
    rintro _ st₁ m₁ ⟨mf₁, himg₁, hw⟩
    refine wlp_mono (himg₁.addLinks hg o.links h1 hw.wrote.isDir) ?_
    rintro _ st₂ m₂ ⟨mf₂, himg₂, hl⟩
    have happ : Appended 1 mf₁ mf₂ := (hl.packed (hw.wrote.packed htakes.packed).1).2
    exact ⟨mf₂, himg₂, hw.leads.keep hl.kept (fun j hj hj' => by omega) himg₁.inodes.2
      (Nat.le_refl _) hl.next dir happ⟩
  obtain ⟨g, mf, -, ⟨mc, himg⟩, hk, hl⟩ := formatted_of_writeSource (P := fun _ st mf =>
    Leads mf 2 st.nextinode dir 1 ⟨2, []⟩) hbody h
  have h1 : 1 < g.ninodes := by
    have := himg.inodes
    omega
  exact ⟨g, mc, himg, hl.keep hk (fun _ _ _ => id) himg.inodes.2 (Nat.le_refl _) (Nat.le_refl _)
    dir (.of_eq fun k => hk.entry 1 k h1 id)⟩

theorem formatted_namei (h : formatted o = some (st, m)) (ho : Plain o dir) {t : Nat} {a : HostName}
    (ht : dir.visits[t]? = some (some a)) : namei m 1 a.path = some (dir.number t) := by
  obtain ⟨g, mc, himg, hl⟩ := formatted_leads h ho
  have h1 : 1 < g.ninodes := by
    have := himg.inodes
    omega
  obtain ⟨hlt, hget⟩ := List.getElem?_eq_some_iff.1 ht
  have hkeys : t < dir.keys.length := by
    unfold HostDir.keys
    rwa [List.length_map]
  refine hl.namei himg himg.inodes.2 dir h1 a _ (List.mem_of_getElem? (i := t) ?_)
  rw [List.getElem?_zip_eq_some]
  exact ⟨ht, Numbering.nums_getElem? 2 hkeys⟩

/-! ## Hard links -/

/-- Two names of regular files, or two of symbolic links, lead to one inode iff they are names
of one inode of the host. -/
def HardLinksPreserved (m : Mem) (dir : HostDir) : Prop :=
  ∀ a b, some a ∈ dir.visits → some b ∈ dir.visits → a.symlink = b.symlink →
    ∃ i j, namei m 1 a.path = some i ∧ namei m 1 b.path = some j ∧ (i = j ↔ a.stIno = b.stIno)

/-- A name that `add_hardlink` enters under the number `r` of another inode. -/
def HostName.Aliases (a : HostName) (r : Nat) : Prop :=
  1 < a.stNlink ∧ a.stIno ≠ r ∧ hostIno32 a.stIno = r

/-- Such a name comes between visits `i` and `j`. -/
def HostDir.AliasBetween (dir : HostDir) (i j r : Nat) : Prop :=
  ∃ t c, i < t ∧ t < j ∧ dir.visits[t]? = some (some c) ∧ c.Aliases r

/-- Names of one inode have a number of 32 bits that no alias between them covers, and an alias
is covered by another one before the number it stands for comes. -/
def LinksFit (dir : HostDir) : Prop :=
  ∀ i j a b, i < j → dir.visits[i]? = some (some a) → dir.visits[j]? = some (some b) →
    a.symlink = b.symlink →
    (a.stIno = b.stIno →
      b.stIno ≠ 0 ∧ b.stIno < 2 ^ 32 ∧ ¬ dir.AliasBetween i j b.stIno) ∧
    (a.Aliases b.stIno → 1 < b.stNlink → b.stIno ≠ 0 → dir.AliasBetween i j b.stIno)

/-- `lstat` counts the links: an inode with two names in the tree has more than one. -/
def Counted (dir : HostDir) : Prop :=
  dir.visits.Pairwise fun v w => ∀ a ∈ v, ∀ b ∈ w, a.stIno = b.stIno →
    1 < a.stNlink ∧ 1 < b.stNlink

section Pairs

variable {i j k r : Nat} {a b : HostName}

theorem HostName.key_eq_some : a.key = some k ↔ 1 < a.stNlink ∧ k ≠ 0 ∧ a.stIno = k := by
  unfold HostName.key hostKey hostLink
  by_cases hn : 1 < a.stNlink
  · rw [if_pos hn, Option.ite_none_right_eq_some, Option.some.injEq]
    constructor
    · rintro ⟨h0, rfl⟩
      exact ⟨hn, h0, rfl⟩
    · rintro ⟨-, h0, rfl⟩
      exact ⟨h0, rfl⟩
  · rw [if_neg hn]
    exact iff_of_false nofun fun h => hn h.1

theorem HostDir.visit_of_key {t : Nat} (h : dir.key t = some k) :
    ∃ c, dir.visits[t]? = some (some c) ∧ c.key = some k := by
  unfold HostDir.key HostDir.keys at h
  rw [List.getElem?_map] at h
  cases hv : dir.visits[t]? with
  | none =>
    rw [hv] at h
    cases h
  | some v =>
    rw [hv] at h
    cases v with
    | none => cases h
    | some c => exact ⟨c, rfl, h⟩

theorem clear_iff : Numbering.Clear hostIno32 dir.key i j r ↔ ¬ dir.AliasBetween i j r := by
  constructor
  · rintro h ⟨t, c, hit, htj, hc, hn, hne, hr⟩
    have h0 : c.stIno ≠ 0 := by
      intro h0
      rw [h0] at hne hr
      exact hne hr
    have hk : dir.key t = some c.stIno := by
      rw [HostDir.key_of_visit hc, HostName.key_eq_some]
      exact ⟨hn, h0, rfl⟩
    exact hne (h t hit htj _ hk hr)
  · intro h t hit htj k hk hr
    obtain ⟨c, hc, hck⟩ := HostDir.visit_of_key hk
    obtain ⟨hn, -, rfl⟩ := HostName.key_eq_some.1 hck
    by_contra hne
    exact h ⟨t, c, hit, htj, hc, hn, hne, hr⟩

/-- Which names get one number. -/
theorem number_eq_iff (hij : i < j) (hi : dir.visits[i]? = some (some a))
    (hj : dir.visits[j]? = some (some b)) : dir.number i = dir.number j ↔
      1 < a.stNlink ∧ 1 < b.stNlink ∧ a.stIno ≠ 0 ∧ b.stIno ≠ 0 ∧ b.stIno = hostIno32 a.stIno ∧
        ¬ dir.AliasBetween i j b.stIno := by
  unfold HostDir.number
  rw [Numbering.num_eq_iff hostIno32_idem hij, HostDir.key_of_visit hi, HostDir.key_of_visit hj]
  simp only [HostName.key_eq_some, clear_iff]
  constructor
  · rintro ⟨k, ⟨ha, h0, rfl⟩, ⟨hb, hb0, he⟩, hclear⟩
    rw [he]
    exact ⟨ha, hb, h0, hb0, rfl, hclear⟩
  · rintro ⟨ha, hb, h0, hb0, he, hclear⟩
    rw [he] at hb0 hclear
    exact ⟨a.stIno, ⟨ha, h0, rfl⟩, ⟨hb, hb0, he⟩, hclear⟩

/-- When the inodes of two names say whether they are links to one file. -/
theorem pair_iff (hij : i < j) (hi : dir.visits[i]? = some (some a))
    (hj : dir.visits[j]? = some (some b))
    (hcount : a.stIno = b.stIno → 1 < a.stNlink ∧ 1 < b.stNlink) :
    (dir.number i = dir.number j ↔ a.stIno = b.stIno) ↔
      (a.stIno = b.stIno →
        b.stIno ≠ 0 ∧ b.stIno < 2 ^ 32 ∧ ¬ dir.AliasBetween i j b.stIno) ∧
      (a.Aliases b.stIno → 1 < b.stNlink → b.stIno ≠ 0 → dir.AliasBetween i j b.stIno) := by
  rw [number_eq_iff hij hi hj]
  by_cases he : a.stIno = b.stIno
  · obtain ⟨ha, hb⟩ := hcount he
    have hno : ¬ a.Aliases b.stIno := fun h => h.2.1 he
    have hstored : b.stIno = hostIno32 b.stIno ↔ b.stIno < 2 ^ 32 := by
      unfold hostIno32
      omega
    rw [iff_true_right he, he, hstored]
    constructor
    · rintro ⟨-, -, h0, -, hlt, hclear⟩
      exact ⟨fun _ => ⟨h0, hlt, hclear⟩, fun h => absurd h hno⟩
    · rintro ⟨h, -⟩
      obtain ⟨h0, hlt, hclear⟩ := h rfl
      exact ⟨ha, hb, h0, h0, hlt, hclear⟩
  · rw [iff_false_right he]
    constructor
    · refine fun h => ⟨fun h' => absurd h' he, fun hal hb h0 => ?_⟩
      by_contra hclear
      refine h ⟨hal.1, hb, ?_, h0, hal.2.2.symm, hclear⟩
      rintro ha0
      rw [← hal.2.2, ha0] at h0
      exact h0 rfl
    · rintro ⟨-, h⟩ ⟨ha, hb, -, h0, hs, hclear⟩
      exact hclear (h ⟨ha, he, hs.symm⟩ hb h0)

end Pairs

theorem Counted.pair (h : Counted dir) {i j : Nat} {a b : HostName} (hij : i < j)
    (hi : dir.visits[i]? = some (some a)) (hj : dir.visits[j]? = some (some b))
    (he : a.stIno = b.stIno) : 1 < a.stNlink ∧ 1 < b.stNlink := by
  obtain ⟨hil, hi⟩ := List.getElem?_eq_some_iff.1 hi
  obtain ⟨hjl, hj⟩ := List.getElem?_eq_some_iff.1 hj
  exact List.pairwise_iff_getElem.1 h i j hil hjl hij a hi b hj he

/-- **Where hard links are preserved**: exactly on the trees whose inode numbers fit. -/
theorem hardLinksPreserved_iff (h : formatted o = some (st, m)) (ho : Plain o dir)
    (hcount : Counted dir) : HardLinksPreserved m dir ↔ LinksFit dir := by
  constructor
  · intro hp i j a b hij hi hj hkind
    obtain ⟨n, n', hn, hn', heq⟩ :=
      hp a b (List.mem_of_getElem? hi) (List.mem_of_getElem? hj) hkind
    rw [formatted_namei h ho hi] at hn
    rw [formatted_namei h ho hj] at hn'
    cases hn
    cases hn'
    exact (pair_iff hij hi hj (hcount.pair hij hi hj)).1 heq
  · intro hf a b ha hb hkind
    obtain ⟨i, hi⟩ := List.getElem?_of_mem ha
    obtain ⟨j, hj⟩ := List.getElem?_of_mem hb
    refine ⟨_, _, formatted_namei h ho hi, formatted_namei h ho hj, ?_⟩
    rcases Nat.lt_trichotomy i j with hij | rfl | hji
    · exact (pair_iff hij hi hj (hcount.pair hij hi hj)).2 (hf i j a b hij hi hj hkind)
    · rw [hi] at hj
      cases hj
      exact iff_of_true rfl rfl
    · have := (pair_iff hji hj hi (hcount.pair hji hj hi)).2 (hf j i b a hji hj hi hkind.symm)
      rw [eq_comm, this, eq_comm]

theorem linksFit_of_lt (h : ∀ a, some a ∈ dir.visits → a.stIno ≠ 0 ∧ a.stIno < 2 ^ 32) :
    LinksFit dir := by
  have hno {a : HostName} (ha : some a ∈ dir.visits) (r : Nat) : ¬ a.Aliases r := by
    rintro ⟨-, hne, hr⟩
    exact hne ((Nat.mod_eq_of_lt (h a ha).2).symm.trans hr)
  intro i j a b hij hi hj _
  refine ⟨fun _ => ⟨(h b (List.mem_of_getElem? hj)).1, (h b (List.mem_of_getElem? hj)).2, ?_⟩,
    fun hal => absurd hal (hno (List.mem_of_getElem? hi) _)⟩
  rintro ⟨t, c, -, -, hc, hal⟩
  exact hno (List.mem_of_getElem? hc) _ hal

/-! ## Two names of one file -/

def twoNames (ino : Nat) : HostDir :=
  .file ⟨⟨[97], by decide⟩, 2, ino, 420, none, []⟩
    (.file ⟨⟨[98], by decide⟩, 2, ino, 420, none, []⟩ .nil)

def twoNamesOptions (ino : Nat) : Options := ⟨8192, 16, false, [], .recursive (twoNames ino)⟩

theorem twoNames_visits (ino : Nat) : (twoNames ino).visits =
    [some ⟨[[97]], false, 2, ino⟩, some ⟨[[98]], false, 2, ino⟩] := rfl

theorem twoNames_plain (ino : Nat) : Plain (twoNamesOptions ino) (twoNames ino) := by
  refine ⟨rfl, rfl, ?_, List.not_mem_nil, trivial⟩
  show ([97] : Bytes) ∉ [[98]]
  decide

theorem twoNames_counted (ino : Nat) : Counted (twoNames ino) := by
  unfold Counted
  rw [twoNames_visits, List.pairwise_pair]
  rintro a ⟨⟩ b ⟨⟩ _
  exact ⟨Nat.one_lt_two, Nat.one_lt_two⟩

theorem twoNames_preserved : ∃ st m, formatted (twoNamesOptions 5) = some (st, m) ∧
    HardLinksPreserved m (twoNames 5) := by
  have hsome : (formatted (twoNamesOptions 5)).isSome = true := by decide +kernel
  obtain ⟨⟨st, m⟩, h⟩ := Option.isSome_iff_exists.1 hsome
  refine ⟨st, m, h, (hardLinksPreserved_iff h (twoNames_plain 5) (twoNames_counted 5)).2 ?_⟩
  refine linksFit_of_lt fun a ha => ?_
  have hino : a.stIno = 5 := by
    rw [twoNames_visits, List.mem_pair] at ha
    rcases ha with heq | heq <;> cases heq <;> rfl
  rw [hino]
  decide

/-- A number of 33 bits: each name gets an inode of its own. -/
theorem twoNames_parted : ∃ st m, formatted (twoNamesOptions (2 ^ 32 + 5)) = some (st, m) ∧
    ¬ HardLinksPreserved m (twoNames (2 ^ 32 + 5)) := by
  have hsome : (formatted (twoNamesOptions (2 ^ 32 + 5))).isSome = true := by decide +kernel
  obtain ⟨⟨st, m⟩, h⟩ := Option.isSome_iff_exists.1 hsome
  have ho := twoNames_plain (2 ^ 32 + 5)
  have hvisits := twoNames_visits (2 ^ 32 + 5)
  have ha := formatted_namei h ho (t := 0) (by rw [hvisits]; rfl)
  have hb := formatted_namei h ho (t := 1) (by rw [hvisits]; rfl)
  have hn : (twoNames (2 ^ 32 + 5)).number 0 = 2 ∧ (twoNames (2 ^ 32 + 5)).number 1 = 3 := by
    decide +kernel
  refine ⟨st, m, h, fun hp => ?_⟩
  obtain ⟨i, j, hi, hj, heq⟩ := hp ⟨[[97]], false, 2, 2 ^ 32 + 5⟩ ⟨[[98]], false, 2, 2 ^ 32 + 5⟩
    (by rw [hvisits]; exact List.mem_cons_self)
    (by rw [hvisits]; exact List.mem_cons_of_mem _ List.mem_cons_self) rfl
  have hij := heq.2 rfl
  rw [hij, ← hj, ha, hb, hn.1, hn.2] at hi
  cases hi

end OsLabs.Ospfs
