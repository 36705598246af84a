import OsLabs.Ospfs.Formatted
import OsLabs.Ospfs.Fsimgtoc
import OsLabs.Ospfs.Samefile
import OsLabs.Ospfs.Transfer

/-!
# OSPFS: from the host's files to the mounted file system

`ospfsformat` writes a directory tree to an image, `fsimgtoc` prints the image as a C array,
and the array compiled into the module is its disk. `toolchain_delivers`: a path of the
host leads `ospfs_dir_lookup` to an inode that `ospfs_read` reads the host's bytes from.
-/

namespace OsLabs.Ospfs

open BlockProg

variable {o : Options} {g : Geometry} {st st' : Globals} {m m' mf mf' : Mem} {d i ino : Nat}
  {name bs : Bytes} {s : Numbering Nat}

/-! ## What the inodes hold -/

/-- The files of `dir` with one link have their bytes in the inodes that they are numbered by
from the state `s` on; those are from `lo` to `hi`. -/
def Delivers (m : Mem) (lo hi : Nat) : (dir : HostDir) → (s : Numbering Nat) → Prop
  | .nil, _ => True
  | .file f rest, s =>
    let r := s.number hostIno32 (hostKey (hostLink f.stNlink f.stIno))
    (hostLink f.stNlink f.stIno = 0 → lo ≤ r.1 ∧ r.1 < hi ∧
      oiFtype m (inodeAddr r.1) = ftypeReg ∧ HasContent m r.1 (copied f.reads)) ∧
      Delivers m lo hi rest r.2
  | .directory name _ sub rest, s =>
    if skipped name then Delivers m lo hi rest s
    else
      let r := s.number hostIno32 none
      Delivers m lo hi sub r.2 ∧ Delivers m lo hi rest (r.2.after hostIno32 sub.keys)
  | .symlink _ stNlink stIno target rest, s =>
    if target.val.length > 51 then Delivers m lo hi rest s
    else Delivers m lo hi rest (s.number hostIno32 (hostKey (hostLink stNlink stIno))).2
  | .other rest, s => Delivers m lo hi rest s
  | .unreadable rest, s => Delivers m lo hi rest s

theorem HasContent.keep_reg {E : Nat → Prop} (h : HasContent mf ino bs) (hk : Kept g E mf mf')
    (htree : Tree g mf) (hin : ino < g.ninodes) (hty : oiFtype mf (inodeAddr ino) = ftypeReg)
    (hE : ¬ E ino) : oiFtype mf' (inodeAddr ino) = ftypeReg ∧ HasContent mf' ino bs := by
  refine ⟨(hk.ftype ino hin hE).trans hty, h.keep hk htree ⟨hin, ?_⟩ ?_ hE⟩
  · rw [hty]
    decide
  · unfold IsDir
    rw [hty]
    decide

theorem Delivers.keep {E : Nat → Prop} {lo lo' hi hi' : Nat} (hk : Kept g E mf mf')
    (htree : Tree g mf) (hE : ∀ j, lo ≤ j → j < hi → ¬ E j) (hhi : hi ≤ g.ninodes)
    (hlo : lo' ≤ lo) (hle : hi ≤ hi') (dir : HostDir) : ∀ {s : Numbering Nat},
    Delivers mf lo hi dir s → Delivers mf' lo' hi' dir s := by
  induction dir with
  | nil => exact id
  | file f rest ih =>
    intro s h
    refine ⟨fun h0 => ?_, ih h.2⟩
    obtain ⟨hge, hlt, hty, hc⟩ := h.1 h0
    exact ⟨Nat.le_trans hlo hge, Nat.lt_of_lt_of_le hlt hle,
      hc.keep_reg hk htree (Nat.lt_of_lt_of_le hlt hhi) hty (hE _ hge hlt)⟩
  | directory name mode sub rest ihs ihr =>
    intro s h
    unfold Delivers at h ⊢
    split
    · next hskip =>
      rw [if_pos hskip] at h
      exact ihr h
    · next hskip =>
      rw [if_neg hskip] at h
      exact ⟨ihs h.1, ihr h.2⟩
  | symlink name stNlink stIno target rest ih =>
    intro s h
    unfold Delivers at h ⊢
    split
    · next hlen =>
      rw [if_pos hlen] at h
      exact ih h
    · next hlen =>
      rw [if_neg hlen] at h
      exact ih h
  | other rest ih => exact ih
  | unreadable rest ih => exact ih

theorem Numbered.holds {lo hi : Nat} (hnum : Numbered d name 0 st mf st' mf')
    (hf : HoldsFile mf' lo hi d name bs)
    (hfresh : ∀ k v, dirent mf d k = some v → v.1 ≠ name) :
    lo ≤ (st.number 0).1 ∧ (st.number 0).1 < hi ∧
      oiFtype mf' (inodeAddr (st.number 0).1) = ftypeReg ∧ HasContent mf' (st.number 0).1 bs := by
  obtain ⟨k, ino, hge, hlt, hent, hty, hc⟩ := hf
  rcases hnum.entry.new k _ hent with hold | heq
  · exact absurd rfl (hfresh k _ hold)
  · obtain rfl : ino = (st.number 0).1 := congrArg Prod.snd heq
    exact ⟨hge, hlt, hty, hc⟩

/-- A walk fills the inodes of the files that it meets. -/
theorem Walk.delivers {dir : HostDir} (h : Walk g o dir d st mf st' mf')
    (hl : o.linkContents = false) (hd : d < g.ninodes) (hdn : d < st.nextinode) (hdir : IsDir mf d)
    (hdist : dir.Distinct) (ht : Takes mf d dir.names) (hend : Between g st' mf') :
    Delivers mf' st.nextinode st'.nextinode dir st.numbering := by
  induction h with
  | nil => trivial
  | @file f rest d st st₁ st₂ mf mf₁ mf₂ hw hfile hnum h₁ hrest ih =>
    have hw₂ := hrest.wrote hd hw.isDir
    have hnext := hw.next
    have hn := hnum hl
    have hr := (ih hd (by omega) hw.isDir hdist.2 (ht.of_wrote hdist.1 hw) hend).keep .refl hend.tree
      (fun _ _ _ => id) hend.le hw.next (Nat.le_refl _)
    rw [hn.globals] at hr
    refine ⟨fun h0 => ?_, hr⟩
    show st.nextinode ≤ (st.number _).1 ∧ (st.number _).1 < _ ∧ _
    rw [h0] at hn ⊢
    obtain ⟨hge, hlt, hty, hc⟩ := hn.holds (hfile h0 hl) fun k v hv he =>
      ht.unused k v hv (he ▸ List.mem_cons_self)
    exact ⟨hge, Nat.lt_of_lt_of_le hlt hw₂.next, hc.keep_reg hw₂.kept h₁.tree
      (Nat.lt_of_lt_of_le hlt h₁.le) hty (by omega)⟩
  | skip hskip _ ih =>
    unfold Delivers
    rw [if_pos hskip]
    exact ih hd hdn hdir hdist.2.2 (ht.mono fun _ => List.mem_cons_of_mem _) hend
  | @directory name mode sub rest d st st₁ st₂ st₃ mf mf₁ mf₂ mf₃ hskip hnext hlinks hnew hsub h₂
      hrest ihs ihr =>
    have hnum : st₁.numbering = (st.numbering.number hostIno32 none).2 := by
      unfold Globals.numbering
      rw [hnext, hlinks]
      rfl
    have hempty := Takes.of_empty hnew.empty sub.names
    have hs := hsub.walked hl hnew.lt hnew.isDir hdist.2.1 hempty h₂.le
    have hw₂ := hnew.wrote_sub hd hnext hs.wrote
    have htakes := ht.of_wrote hdist.1 hw₂
    have hr := hrest.wrote hd hw₂.isDir
    have hne := hnew.ne
    have hle := hs.wrote.next
    have hle₃ := hr.next
    have hsub' := (ihs hnew.lt (by omega) hnew.isDir hdist.2.1 hempty h₂).keep hr.kept h₂.tree
      (fun j hj hj' => by omega) h₂.le (by omega : st.nextinode ≤ st₁.nextinode) hle₃
    have hrest' := (ihr hd (by omega) hw₂.isDir hdist.2.2 htakes hend).keep .refl hend.tree
      (fun _ _ _ => id) hend.le (by omega : st.nextinode ≤ _) (Nat.le_refl _)
    rw [hnum] at hsub'
    rw [hs.numbering, hnum] at hrest'
    unfold Delivers
    rw [if_neg hskip]
    exact ⟨hsub', hrest'⟩
  | symlink hlen hw hnum hrest ih =>
    have hnext := hw.next
    have hr := (ih hd (by omega) hw.isDir hdist.2 (ht.of_wrote hdist.1 hw) hend).keep .refl hend.tree
      (fun _ _ _ => id) hend.le hw.next (Nat.le_refl _)
    rw [(hnum hl).globals] at hr
    unfold Delivers
    rw [if_neg hlen]
    exact hr
  | long hlen _ ih =>
    unfold Delivers
    rw [if_pos hlen]
    exact ih hd hdn hdir hdist.2 (ht.mono fun _ => List.mem_cons_of_mem _) hend
  | other _ ih => exact ih hd hdn hdir hdist ht hend

theorem formatted_delivers (h : formatted o = some (st, m)) {dir : HostDir} (ho : Plain o dir) :
    ∃ (g : Geometry) (mc : Mem), Fits o g ∧ Image g st mc m ∧
      Leads m 2 st.nextinode dir 1 ⟨2, []⟩ ∧ Delivers m 2 st.nextinode dir ⟨2, []⟩ := by
  have hbody : ∀ g, Fits o g → ∀ mf, Image g ⟨g.firstdata, 2, []⟩ rootDisk mf → IsDir mf 1 →
      (∀ k, dirent mf 1 k = none) →
      (writeSource o (inodeAddr 1)).wlp g.nblocks (fun _ st' m' => ∃ mf', Image g st' m' mf' ∧
        Leads mf' 2 st'.nextinode dir 1 ⟨2, []⟩ ∧ Delivers mf' 2 st'.nextinode dir ⟨2, []⟩ ∧
        Tree g mf') ⟨g.firstdata, 2, []⟩ rootDisk := by
    intro g hg mf himg hdir hempty
    have h1 : 1 < g.ninodes := by
      have := himg.inodes
      omega
    unfold writeSource
    rw [ho.source]
    simp only [wlp_bind]
    have htakes : Takes mf 1 dir.names := .of_empty hempty _
    refine wlp_mono (himg.walk hg dir h1 hdir) ?_
    rintro _ st₁ m₁ ⟨mf₁, himg₁, hwalk⟩
    have hw := hwalk.walked ho.linkContents h1 hdir ho.distinct htakes himg₁.inodes.2
    have hdel := hwalk.delivers ho.linkContents h1 Nat.one_lt_two hdir ho.distinct htakes
      himg₁.between
    -- the links of `-l` come behind
    refine wlp_mono (himg₁.addLinks hg o.links h1 hw.wrote.isDir) ?_
    rintro _ st₂ m₂ ⟨mf₂, himg₂, hl⟩
    have happ : Appended 1 mf₁ mf₂ := (hl.packed (hw.wrote.packed htakes.packed).1).2
    exact ⟨mf₂, himg₂, hw.leads.keep hl.kept (fun j hj hj' => by omega) himg₁.inodes.2
      (Nat.le_refl _) hl.next dir happ, hdel.keep hl.kept himg₁.tree
        (fun j (hj : 2 ≤ j) hj' => by omega)
      himg₁.inodes.2 (Nat.le_refl _) hl.next dir, himg₂.tree⟩
  obtain ⟨g, mf, hg, ⟨mc, himg⟩, hk, hl, hdel, htree⟩ := formatted_of_writeSource
    (P := fun g st mf => Leads mf 2 st.nextinode dir 1 ⟨2, []⟩ ∧
      Delivers mf 2 st.nextinode dir ⟨2, []⟩ ∧ Tree g mf) hbody h
  have h1 : 1 < g.ninodes := by
    have := himg.inodes
    omega
  exact ⟨g, mc, hg, himg, hl.keep hk (fun _ _ _ => id) himg.inodes.2 (Nat.le_refl _)
    (Nat.le_refl _) dir (.of_eq fun k => hk.entry 1 k h1 id),
    hdel.keep hk htree (fun _ _ _ => id) himg.inodes.2 (Nat.le_refl _) (Nat.le_refl _) dir⟩

/-! ## Paths -/

/-- The regular files that are copied, by their paths. -/
def HostDir.files : HostDir → List (List Bytes × HostFile)
  | .nil => []
  | .file f rest => ([f.name.val], f) :: rest.files
  | .directory name _ sub rest =>
    if skipped name then rest.files
    else (sub.files.map fun p => (name.val :: p.1, p.2)) ++ rest.files
  | .symlink _ _ _ _ rest => rest.files
  | .other rest => rest.files
  | .unreadable rest => rest.files

/-- A regular file at the end of a path. -/
def FileAt (m : Mem) (hi d : Nat) (path : List Bytes) (bs : Bytes) : Prop :=
  ∃ ino, namei m d path = some ino ∧ ino < hi ∧ oiFtype m (inodeAddr ino) = ftypeReg ∧
    HasContent m ino bs

theorem Image.namei_one (h : Image g st m mf) (hd : d < g.ninodes) (hn : Names mf d name i) :
    namei mf d [name] = some i := by
  rw [namei, h.dirLookup hd hn]
  rfl

theorem Image.namei_cons (h : Image g st m mf) (hd : d < g.ninodes) (hn : Names mf d name i)
    (path : List Bytes) : namei mf d (name :: path) = namei mf i path := by
  rw [namei, h.dirLookup hd hn]

theorem Leads.fileAt {lo hi : Nat} (h : Image g st m mf) (hhi : hi ≤ g.ninodes) (dir : HostDir) :
    ∀ {d : Nat} {s : Numbering Nat}, d < g.ninodes → Leads mf lo hi dir d s →
      Delivers mf lo hi dir s → ∀ p ∈ dir.files, hostLink p.2.stNlink p.2.stIno = 0 →
        FileAt mf hi d p.1 (copied p.2.reads) := by
  induction dir with
  | nil =>
    intro d s _ _ _ p hp
    cases hp
  | file f rest ih =>
    intro d s hd hl hdel p hp h0
    rcases List.mem_cons.1 hp with rfl | hp
    · obtain ⟨-, hlt, hty, hc⟩ := hdel.1 h0
      exact ⟨_, h.namei_one hd hl.1, hlt, hty, hc⟩
    · exact ih hd hl.2 hdel.2 p hp h0
  | directory name mode sub rest ihs ihr =>
    intro d s hd hl hdel p hp h0
    rw [Leads] at hl
    rw [Delivers] at hdel
    rw [HostDir.files] at hp
    by_cases hskip : skipped name = true
    · rw [if_pos hskip] at hl hdel hp
      exact ihr hd hl hdel p hp h0
    rw [if_neg hskip] at hl hdel hp
    obtain ⟨-, hlt, hn, hls, hlr⟩ := hl
    rcases List.mem_append.1 hp with hp | hp
    · obtain ⟨q, hq, rfl⟩ := List.mem_map.1 hp
      obtain ⟨ino, hino, hfile⟩ := ihs (Nat.lt_of_lt_of_le hlt hhi) hls hdel.1 q hq h0
      exact ⟨ino, (h.namei_cons hd hn q.1).trans hino, hfile⟩
    · exact ihr hd hlr hdel.2 p hp h0
  | symlink name stNlink stIno target rest ih =>
    intro d s hd hl hdel p hp h0
    rw [Leads] at hl
    rw [Delivers] at hdel
    by_cases hlen : target.val.length > 51
    · rw [if_pos hlen] at hl hdel
      exact ih hd hl hdel p hp h0
    · rw [if_neg hlen] at hl hdel
      exact ih hd hl.2 hdel p hp h0
  | other rest ih => exact ih
  | unreadable rest ih => exact ih

/-! ## Reading a file to its end -/

/-- Calls of `ospfs_read` with these counts, each from the position that the one before left. -/
def readCalls (m : Mem) (oi : Nat) : (counts : List Nat) → (fPos : Nat) → Option (List Transfer)
  | [], _ => some []
  | count :: counts, fPos => do
    let t ← ospfsRead m oi count fPos fun _ => true
    let ts ← readCalls m oi counts t.fPos
    return t :: ts

def deliveries (bs : Bytes) : (counts : List Nat) → (fPos : Nat) → List Transfer
  | [], _ => []
  | count :: counts, fPos =>
    let n := min count (bs.length - fPos)
    ⟨.ok n, fPos + n, (bs.drop fPos).take n⟩ :: deliveries bs counts (fPos + n)

theorem deliveries_out (bs : Bytes) (counts : List Nat) (fPos : Nat) :
    ((deliveries bs counts fPos).map (·.out)).flatten = (bs.drop fPos).take counts.sum := by
  induction counts generalizing fPos with
  | nil => rfl
  | cons count counts ih =>
    have hlen := List.length_drop (i := fPos) (l := bs)
    simp only [deliveries, List.map_cons, List.flatten_cons, ih, List.sum_cons]
    rcases Nat.le_total count (bs.length - fPos) with hle | hle
    · rw [Nat.min_eq_left hle, ← List.drop_drop, ← List.take_add]
    · have htail : bs.drop (fPos + (bs.length - fPos)) = [] := List.drop_eq_nil_of_le (by omega)
      rw [Nat.min_eq_right hle, htail, List.take_nil, List.append_nil,
        List.take_of_length_le (by omega), List.take_of_length_le (by omega)]

section Reading

variable (ht : Tidy g (Files g m) m) (hin : ino < g.ninodes)
  (hty : oiFtype m (inodeAddr ino) = ftypeReg) (hwh : oiSize m (inodeAddr ino) + 1023 < 2 ^ 32)
include ht hin hty hwh

theorem Tidy.mapped_reg : Mapped m (inodeAddr ino) := by
  have hsym : oiFtype m (inodeAddr ino) ≠ ftypeSymlink := by
    rw [hty]
    decide
  intro b hb
  have hblocks : b < fileBlocks m ino := by
    unfold fileBlocks ospfsSize2nblocks
    omega
  have hsmall := ht.fileBlocks_small ⟨hin, hsym⟩
  rw [ht.boot.ospfsInodeBlockno hb hsym (by unfold maxfileblks; omega),
    Nat.mul_div_cancel_left _ (by decide)]
  exact ht.mapped ino ⟨hin, hsym⟩ b hblocks

theorem HasContent.fileBytes (h : HasContent m ino bs) {pos n : Nat} (hn : pos + n ≤ bs.length) :
    fileBytes m (inodeAddr ino) pos n = (bs.drop pos).take n := by
  have hsym : oiFtype m (inodeAddr ino) ≠ ftypeSymlink := by
    rw [hty]
    decide
  have hsize := h.size
  refine List.ext_getElem ?_ fun j h1 h2 => ?_
  · unfold Ospfs.fileBytes
    rw [List.length_map, List.length_range, List.length_take, List.length_drop]
    omega
  · unfold Ospfs.fileBytes at h1 ⊢
    rw [List.length_map, List.length_range] at h1
    rw [List.getElem_map, List.getElem_range, List.getElem_take, List.getElem_drop,
      ht.ospfsInodeData ⟨hin, hsym⟩ hsym (by omega)
        (by unfold fileBlocks ospfsSize2nblocks; omega)]
    exact h.bytes (pos + j) (by omega)

/-- **Reading by pieces**: any counts, from any position within the file. -/
theorem HasContent.readCalls (h : HasContent m ino bs) {counts : List Nat}
    (hc : ∀ c ∈ counts, c < 2 ^ 32) {pos : Nat} (hpos : pos ≤ bs.length) :
    readCalls m (inodeAddr ino) counts pos = some (deliveries bs counts pos) := by
  have hsize := h.size
  induction counts generalizing pos with
  | nil => rfl
  | cons count counts ih =>
    have hcount := hc count List.mem_cons_self
    have hread := (ospfsRead_content_iff (ht.mapped_reg hin hty hwh) hcount
      (by omega : pos < 2 ^ 63)).2 (.inl (by omega))
    rw [hsize, h.fileBytes ht hin hty hwh (by omega)] at hread
    have hrest := ih (fun c hm => hc c (List.mem_cons_of_mem _ hm))
      (by omega : pos + min count (bs.length - pos) ≤ bs.length)
    unfold Ospfs.readCalls
    rw [hread]
    simp only [Option.bind_eq_bind, Option.bind_some, hrest]
    rfl

end Reading

/-- In an image, each file with one link is read at its path. -/
theorem Image.reads (h : Image g st m mf) {hi : Nat} (hhi : hi ≤ g.ninodes) {dir : HostDir}
    (hl : Leads mf 2 hi dir 1 s) (hdel : Delivers mf 2 hi dir s) {p : List Bytes × HostFile}
    (hp : p ∈ dir.files) (h0 : hostLink p.2.stNlink p.2.stIno = 0) :
    ∃ ino oi, namei mf 1 p.1 = some ino ∧ ospfsInode mf ino = some oi ∧
      oiFtype mf oi = ftypeReg ∧ ∀ counts : List Nat, (∀ c ∈ counts, c < 2 ^ 32) →
        readCalls mf oi counts 0 = some (deliveries (copied p.2.reads) counts 0) := by
  have h1 : 1 < g.ninodes := by
    have := h.inodes
    omega
  obtain ⟨ino, hino, hlt, hty, hc⟩ := hl.fileAt h hhi dir h1 hdel p hp h0
  have hin : ino < g.ninodes := Nat.lt_of_lt_of_le hlt hhi
  have hwh := h.tree.whole ino ⟨hin, by rw [hty]; decide⟩
  exact ⟨ino, _, hino, h.tidy.ospfsInode hin, hty, fun counts hcounts =>
    hc.readCalls h.tidy hin hty hwh hcounts (Nat.zero_le _)⟩

/-- What `readn` gives of a file that holds these bytes, up to 1024 of them at a time. -/
def ReadFrom : Bytes → List (Option { bytes : Bytes // bytes.length ≤ 1024 }) → Prop
  | bs, [] => bs = []
  | bs, r :: reads => r.map Subtype.val = some (bs.take 1024) ∧ ReadFrom (bs.drop 1024) reads

theorem ReadFrom.copied {reads : List (Option { bytes : Bytes // bytes.length ≤ 1024 })}
    (h : ReadFrom bs reads) : copied reads = bs := by
  induction reads generalizing bs with
  | nil => exact Eq.symm h
  | cons r reads ih =>
    obtain ⟨hr, hrest⟩ := h
    obtain ⟨b, rfl, hb⟩ := Option.map_eq_some_iff.1 hr
    have hlen : b.val.length = min 1024 bs.length := by rw [hb, List.length_take]
    rw [Ospfs.copied]
    split
    · rw [hb, List.take_of_length_le (by omega)]
    · rw [ih hrest, hb, List.take_append_drop]

/-- **Format and read round trip.** A regular file of the directory tree that has one link is
found at its path in the image, and reading it from the start, by any number of calls with any
counts, delivers its bytes in order: each call as many as are left of what it asks for. -/
theorem formatted_read (o : Options) (dir : HostDir) (ho : Plain o dir) :
    ∀ st m, formatted o = some (st, m) →
      ∀ p ∈ dir.files, hostLink p.2.stNlink p.2.stIno = 0 → ∀ bs, ReadFrom bs p.2.reads →
        ∃ ino oi, namei m 1 p.1 = some ino ∧ ospfsInode m ino = some oi ∧
          oiFtype m oi = ftypeReg ∧ ∀ counts : List Nat, (∀ c ∈ counts, c < 2 ^ 32) →
            readCalls m oi counts 0 = some (deliveries bs counts 0) ∧
            ((deliveries bs counts 0).map (·.out)).flatten = bs.take counts.sum := by
  intro st m hf p hp h0 bs hbs
  obtain ⟨g, mc, -, himg, hl, hdel⟩ := formatted_delivers hf ho
  obtain ⟨ino, oi, hino, hoi, hty, hread⟩ := himg.reads himg.inodes.2 hl hdel hp h0
  rw [hbs.copied] at hread
  refine ⟨ino, oi, hino, hoi, hty, fun counts hcounts => ⟨hread counts hcounts, ?_⟩⟩
  rw [deliveries_out, List.drop_zero]

theorem plain_hello : Plain helloOptions hello :=
  ⟨rfl, rfl, List.not_mem_nil, ⟨List.not_mem_nil, trivial⟩, trivial⟩

/-- The file `d/f` is read by calls for three, one and two bytes. -/
theorem formatted_read_hello : ∃ st m ino oi, formatted helloOptions = some (st, m) ∧
    namei m 1 [[100], [102]] = some ino ∧ ospfsInode m ino = some oi ∧
    readCalls m oi [3, 1, 2] 0 =
      some [⟨.ok 2, 2, [104, 105]⟩, ⟨.ok 0, 2, []⟩, ⟨.ok 0, 2, []⟩] := by
  obtain ⟨st, m, hf, -⟩ := formatted_hello
  obtain ⟨ino, oi, hino, hoi, -, hread⟩ := formatted_read helloOptions hello plain_hello st m hf
    ([[100], [102]], _) List.mem_cons_self rfl [104, 105] ⟨rfl, rfl⟩
  exact ⟨st, m, ino, oi, hf, hino, hoi, (hread [3, 1, 2] (by decide)).1⟩

/-! ## The tool chain -/

def imageFile (o : Options) (m : Mem) : Bytes := m.load 0 (1024 * o.nblocks)

/-- The module's memory starts out with the array that the compiler makes of the text that
`fsimgtoc` prints of the image that `ospfsformat` leaves. -/
def Built (o : Options) (mm : Mem) : Prop :=
  ∃ st m data, formatted o = some (st, m) ∧
    Initializer.ucharArray (Fsimgtoc.print (imageFile o m) (imageFile o m).length) = some data ∧
    ∀ x (hx : x < data.length), mm x = data[x]

theorem getElem_imageFile {x : Nat} (hx : x < (imageFile o m).length) : (imageFile o m)[x] = m x :=
  (Mem.getElem_load hx).trans (congrArg m (Nat.zero_add x))

theorem Built.agrees {mm : Mem} (h : Built o mm) : ∃ st m, formatted o = some (st, m) ∧
    ∀ x, x < 1024 * o.nblocks → mm x = m x := by
  obtain ⟨st, m, data, hf, harray, hmm⟩ := h
  rw [Fsimgtoc.fsimgtoc_round_trip] at harray
  cases harray
  refine ⟨st, m, hf, fun x hx => ?_⟩
  have hlen : x < (imageFile o m).length := by
    unfold imageFile
    rwa [Mem.length_load]
  exact (hmm x hlen).trans (getElem_imageFile hlen)

/-- **From the host to the mounted file system.** In the module that is built from a directory
tree every regular file with one link is found at its path, and reading it from the start, by
calls with any counts, delivers the host's bytes in order: each call as many as are left of
what it asks for. -/
theorem toolchain_delivers (o : Options) (dir : HostDir) (mm : Mem) (hb : Built o mm)
    (ho : Plain o dir) : ∀ p ∈ dir.files, hostLink p.2.stNlink p.2.stIno = 0 →
      ∃ ino oi, namei mm 1 p.1 = some ino ∧ ospfsInode mm ino = some oi ∧
        ∀ counts : List Nat, (∀ c ∈ counts, c < 2 ^ 32) →
          readCalls mm oi counts 0 = some (deliveries (copied p.2.reads) counts 0) ∧
          ((deliveries (copied p.2.reads) counts 0).map (·.out)).flatten =
            (copied p.2.reads).take counts.sum := by
  intro p hp h0
  obtain ⟨st, m, hf, hmm⟩ := hb.agrees
  obtain ⟨g, mc, hg, himg, hl, hdel⟩ := formatted_delivers hf ho
  rw [← hg.nblocks] at hmm
  obtain ⟨⟨mc', hload⟩, hk⟩ := himg.loaded hmm
  have h1 : 1 < g.ninodes := by
    have := himg.inodes
    omega
  have hl' := hl.keep hk (fun _ _ _ => id) himg.inodes.2 (Nat.le_refl _) (Nat.le_refl _) dir
    (.of_eq fun k => hk.entry 1 k h1 id)
  have hdel' := hdel.keep hk himg.tree (fun _ _ _ => id) himg.inodes.2 (Nat.le_refl _)
    (Nat.le_refl _) dir
  obtain ⟨ino, oi, hino, hoi, -, hread⟩ := hload.reads himg.inodes.2 hl' hdel' hp h0
  refine ⟨ino, oi, hino, hoi, fun counts hcounts => ⟨hread counts hcounts, ?_⟩⟩
  rw [deliveries_out, List.drop_zero]

theorem hello_built : ∃ mm, Built helloOptions mm := by
  obtain ⟨st, m, h, -⟩ := formatted_hello
  exact ⟨m, st, m, _, h, Fsimgtoc.fsimgtoc_round_trip _, fun x hx => (getElem_imageFile hx).symm⟩

/-- It is read by calls for one, four and four bytes. -/
theorem toolchain_delivers_hello : ∃ mm ino oi, Built helloOptions mm ∧
    namei mm 1 [[100], [102]] = some ino ∧ ospfsInode mm ino = some oi ∧
    readCalls mm oi [1, 4, 4] 0 =
      some [⟨.ok 1, 1, [104]⟩, ⟨.ok 1, 2, [105]⟩, ⟨.ok 0, 2, []⟩] := by
  obtain ⟨mm, hb⟩ := hello_built
  obtain ⟨ino, oi, hino, hoi, hread⟩ := toolchain_delivers helloOptions hello mm hb plain_hello
    ([[100], [102]], _) List.mem_cons_self rfl
  exact ⟨mm, ino, oi, hb, hino, hoi, (hread [1, 4, 4] (by decide)).1⟩

end OsLabs.Ospfs
