import OsLabs.Ospfs.Extend
import OsLabs.Ospfs.Namespace
import OsLabs.Ospfs.Settled

/-!
# OSPFS: what the calls do to the files

On a settled disk `ospfs_read` returns what `content` says, and `ospfs_write` changes the content of
its file only (`reads`, `writes`). A call on names leaves the files alone that have links before and
after it, and a file that it makes is empty (`evolves`).
-/

namespace OsLabs.Ospfs

open Chunks Volume

/-! ## Transfers -/

namespace Content

def extend (c : Content) (n : Nat) : Content := if c.size < n then c.resize n else c

/-- A write of `count` bytes from `pos` on. It fails only where the buffer cannot be read, and then
leaves open what of these bytes has been written. -/
structure Writes (c : Content) (buffer : Nat → Option UInt8) (count pos : Nat) (t : Transfer)
    (c' : Content) : Prop where
  size : c'.size = (c.extend (pos + count)).size
  outside : ∀ x, x < pos ∨ pos + count ≤ x → c'.byte x = (c.extend (pos + count)).byte x
  out : t.out = []
  result : (t.ret = .ok count ∧ t.fPos = pos + count ∧
      ∀ i < count, buffer i = some (c'.byte (pos + i))) ∨
    ((∃ e, t.ret = .error e) ∧ ∃ i < count, buffer i = none)

/-- A read of `count` bytes from `pos` on. It fails only where a copy to the user does. -/
structure Reads (c : Content) (copyToUser : Nat → Bool) (count pos : Nat) (t : Transfer) :
    Prop where
  out : t.out = c.load pos (t.fPos - pos)
  le : pos ≤ t.fPos ∧ t.fPos ≤ pos + min count (c.size - pos)
  result : (t.ret = .ok (min count (c.size - pos)) ∧ t.fPos = pos + min count (c.size - pos)) ∨
    ((∃ e, t.ret = .error e) ∧ ∃ k, copyToUser k = false)

end Content

variable {g : Geometry} {m m' w : Mem} {d k i ino j n kind count pos : Nat}
  {name : Bytes} {buffer : Nat → Option UInt8}

def Geometry.volume (g : Geometry) : Volume where
  nblocks := g.nblocks
  ninodes := g.ninodes
  firstinob := 3
  addressed := by
    have := g.small
    omega
  bitmap := by
    have := g.small
    omega
  inodes := by
    have := g.inodes
    omega

/-! ## The user's buffer -/

theorem readable_of_copy (hc : (copyFromUser buffer k n).2 = true) (hi : i < n) :
    (buffer (k + i)).isSome := by
  unfold copyFromUser at hc
  have hlen := beq_iff_eq.1 hc
  have hall : ((List.range n).map fun i => buffer (k + i)).takeWhile Option.isSome =
      (List.range n).map fun i => buffer (k + i) := by
    refine (List.takeWhile_sublist _).eq_of_length ?_
    rw [hlen, List.length_map, List.length_range]
  rw [List.takeWhile_eq_self_iff] at hall
  exact hall _ (List.mem_map.2 ⟨i, List.mem_range.2 hi, rfl⟩)

theorem readable_of_not_fails {oi : Nat} (hno : ∀ k, ¬ writeFails m oi count pos buffer k)
    (hi : i < count) : (buffer i).isSome := by
  obtain ⟨k, hk, hk'⟩ := exists_piece (B := 1024) (by decide) (Nat.le_add_right pos i)
  have hdue : cut 1024 pos k < pos + count := by omega
  have hreach := reach_of_lt hdue
  have hlast : pos + i < reach 1024 pos count (k + 1) := Nat.lt_min.2 ⟨hk', by omega⟩
  have hcopy := Bool.eq_true_of_not_eq_false fun hc => hno k ⟨hdue, .inr hc⟩
  have hone := readable_of_copy hcopy (show pos + i - cut 1024 pos k < _ by omega)
  have hstart : pos ≤ cut 1024 pos k := le_cut (by decide)
  rwa [hreach, show cut 1024 pos k - pos + (pos + i - cut 1024 pos k) = i by omega] at hone

/-! ## Reading and writing -/

namespace Settled

variable (h : Settled g m)

include h

theorem placed (hf : Files g m ino) : Placed g.volume m (inodeAddr ino) := by
  have hblocks := h.fileBlocks hf
  have hsmall := h.tidy.fileBlocks_small hf
  have hlt := hf.1
  refine ⟨⟨ino, hlt, rfl⟩, hf.2, ?_, .inl h.tidy.boot, fun p _ h0 => ?_, fun p q _ _ h0 he => ?_⟩
  · unfold fileblks maxfileblks
    omega
  · rw [← own_of_mem hf] at h0 ⊢
    exact h.tidy.laid.isData h0
  · rw [← own_of_mem hf] at h0
    rw [← own_of_mem hf, ← own_of_mem hf] at he
    exact congrArg Prod.snd (h.tidy.laid.owns.inj _ _ h0 he)

theorem block_lt (hf : Files g m ino) (hp : pos < oiSize m (inodeAddr ino)) :
    pos / 1024 < Ospfs.fileBlocks m ino := by
  rw [h.fileBlocks hf]
  omega

theorem mapped (hf : Files g m ino) : Mapped m (inodeAddr ino) := by
  intro b hb
  rw [(h.placed hf).inodeBlockno hb]
  exact h.tidy.mapped ino hf _ (h.block_lt hf hb)

theorem inodeData (hf : Files g m ino) (hp : pos < oiSize m (inodeAddr ino)) :
    ospfsInodeData m (inodeAddr ino) pos =
      1024 * ptr m (inodeAddr ino) (.leaf (pos / 1024)) + pos % 1024 :=
  (h.placed hf).inodeData hp ((h.mapped hf).inodeBlockno hp)

theorem data_byte (hf : Files g m ino) (hp : pos < oiSize m (inodeAddr ino)) :
    m (ospfsInodeData m (inodeAddr ino) pos) = (content m ino).byte pos := by
  rw [h.inodeData hf hp]
  exact (if_pos (h.block_lt hf hp)).symm

/-- **Reading** within a file. -/
theorem reads (hf : Files g m ino) (hc : count < 2 ^ 32) (hp : pos ≤ oiSize m (inodeAddr ino))
    (copyToUser : Nat → Bool) : ∃ t, ospfsRead m (inodeAddr ino) count pos copyToUser = some t ∧
      (content m ino).Reads copyToUser count pos t := by
  obtain ⟨t, ht, hend, hout⟩ := ospfsRead_run m (inodeAddr ino) count pos copyToUser
  rw [readCount_of_le hp hc] at hend
  have hsize : (content m ino).size = oiSize m (inodeAddr ino) := rfl
  have hlen := hout.length
  have hle : t.fPos ≤ pos + min count ((content m ino).size - pos) := by
    rw [hsize]
    rcases hend with ⟨-, hpos, -⟩ | ⟨_, j, -, hpos, ⟨hlt, -⟩, -⟩ <;> omega
  refine ⟨t, ht, ?_, ⟨by omega, hle⟩, ?_⟩
  · have hbytes := Delivered.eq_fileBytes hout (by omega)
    rw [hbytes]
    refine List.map_congr_left fun i hi => ?_
    have := List.mem_range.1 hi
    exact h.data_byte hf (by omega)
  · rw [hsize]
    rcases hend with ⟨hret, hpos, -⟩ | ⟨e, j, hret, -, ⟨hlt, hfail⟩, -⟩
    · exact .inl ⟨hret, hpos⟩
    · refine .inr ⟨⟨e, hret⟩, j, hfail.resolve_left fun h0 => ?_⟩
      have hlim := oiSize_lt m (inodeAddr ino)
      rw [Nat.mod_eq_of_lt (by omega)] at h0
      exact (h.mapped hf).inodeBlockno (by omega) h0

theorem written (hf : Files g m ino) (hnd : ¬ IsDir m ino)
    (hin : pos + count ≤ oiSize m (inodeAddr ino)) {j : Nat}
    (hj : Stored m (inodeAddr ino) count pos buffer j) :
    let w := Ospfs.written m (inodeAddr ino) count pos buffer j
    Edits g ino m w ∧ (content w ino).size = (content m ino).size ∧
      (∀ x, x < pos ∨ pos + count ≤ x → (content w ino).byte x = (content m ino).byte x) ∧
      ∀ x < oiSize m (inodeAddr ino),
        (content w ino).byte x = w (ospfsInodeData m (inodeAddr ino) x) := by
  intro w
  have hlim := oiSize_lt m (inodeAddr ino)
  have houtside := (h.placed hf).written_outside hin hj
  have hpast : reach 1024 pos count j ≤ pos + count := reach_le
  have hwhere (x : Nat) (hx : w x ≠ m x) : ∃ b, own m (Files g m) (ino, .leaf b) ≠ 0 ∧
      1024 * own m (Files g m) (ino, .leaf b) ≤ x ∧
      x < 1024 * own m (Files g m) (ino, .leaf b) + 1024 := by
    by_contra hno
    refine hx (houtside x fun p hp hp' h0 he => hno ⟨p / 1024, ?_, ?_⟩)
    · exact h.tidy.mapped_own hf (h.block_lt hf (by omega))
    · rw [he, h.inodeData hf (by omega), own_of_mem hf]
      omega
  obtain ⟨hedits, hsize, hptr⟩ := h.fill hf hnd hwhere
  have hbyte (x : Nat) : (content w ino).byte x = if x / 1024 < Ospfs.fileBlocks m ino then
      w (1024 * ptr m (inodeAddr ino) (.leaf (x / 1024)) + x % 1024) else 0 := by
    show (if x / 1024 < ospfsSize2nblocks (oiSize _ _) then fileByte _ _ _ else 0) = _
    unfold fileByte
    rw [hsize, hptr]
    rfl
  refine ⟨hedits, hsize, fun x hx => ?_, fun x hx => ?_⟩
  · rw [hbyte]
    show _ = if x / 1024 < Ospfs.fileBlocks m ino then fileByte m ino x else 0
    split
    case isFalse => rfl
    rename_i hb
    refine houtside _ fun p hp hp' h0 he => ?_
    -- another position has another address
    rw [h.inodeData hf (by omega)] at he
    have hsame : own m (Files g m) (ino, .leaf (x / 1024)) =
        own m (Files g m) (ino, .leaf (p / 1024)) := by
      rw [own_of_mem hf, own_of_mem hf]
      omega
    have hleaf := congrArg Prod.snd
      (h.tidy.laid.owns.inj _ _ (h.tidy.mapped_own hf hb) hsame)
    rw [Place.leaf.injEq] at hleaf
    omega
  · rw [hbyte, if_pos (h.block_lt hf hx), h.inodeData hf hx]

theorem writeLoop (hf : Files g m ino) (hnd : ¬ IsDir m ino)
    (hin : pos + count ≤ oiSize m (inodeAddr ino)) (buffer : Nat → Option UInt8) :
    ∃ t m', Ospfs.writeLoop (inodeAddr ino) count buffer count 0 pos m = some (t, m') ∧
      Edits g ino m m' ∧ (content m' ino).size = (content m ino).size ∧
      (∀ x, x < pos ∨ pos + count ≤ x → (content m' ino).byte x = (content m ino).byte x) ∧
      t.out = [] ∧ ((t.ret = .ok count ∧ t.fPos = pos + count ∧
          ∀ i < count, buffer i = some ((content m' ino).byte (pos + i))) ∨
        ((∃ e, t.ret = .error e) ∧ ∃ i < count, buffer i = none)) := by
  have hpl := h.placed hf
  obtain ⟨t, j, ht, hend, hout, hj, hcut⟩ := writeLoop_start m (inodeAddr ino) count pos buffer
  obtain ⟨hedits, hsize, houtside, hdata⟩ := h.written hf hnd hin hj
  refine ⟨t, _, ht, hedits, hsize, houtside, hout, ?_⟩
  rcases hend with ⟨hret, hpos, hno⟩ | ⟨e, q, hret, -⟩
  · refine .inl ⟨hret, hpos, fun i hi => ?_⟩
    have hread : ∀ i < count, (buffer i).isSome := fun i hi => readable_of_not_fails hno hi
    have hfull : reach 1024 pos count j = pos + count := Nat.min_eq_right (hcut hret)
    have hval := (hpl.written_inside hin hread hj (Nat.le_add_right pos i) (by omega)).2
    obtain ⟨c, hc⟩ := Option.isSome_iff_exists.1 (hread i hi)
    rw [hdata _ (by omega), hval, Nat.add_sub_cancel_left, hc]
    rfl
  · -- a buffer that can be read leads to no error
    refine .inr ⟨⟨e, hret⟩, ?_⟩
    by_contra hall
    have hread : ∀ i < count, (buffer i).isSome := by
      intro i hi
      rw [Option.isSome_iff_ne_none]
      exact fun hn => hall ⟨i, hi, hn⟩
    have hmap (b : Nat) (hb : b < fileblks m (inodeAddr ino)) :
        ptr m (inodeAddr ino) (.leaf b) ≠ 0 := by
      refine h.tidy.mapped ino hf b ?_
      rw [h.fileBlocks hf]
      exact hb
    obtain ⟨k, hrun, -⟩ := hpl.writeLoop_ok hmap hin hread
    rw [ht, Option.some.injEq, Prod.mk.injEq] at hrun
    rw [hrun.1] at hret
    cases hret

/-- **Writing** to a file, which may have to grow. -/
theorem writes (hf : Files g m ino) (hnd : ¬ IsDir m ino) (append : Bool)
    (buffer : Nat → Option UInt8)
    (hfit : writeStart m (inodeAddr ino) append pos + count + 1023 < 2 ^ 32)
    (hno : NoNewTable (Ospfs.fileBlocks m ino)
      (ospfsSize2nblocks (writeStart m (inodeAddr ino) append pos + count))) :
    ∃ t m', ospfsWrite m (inodeAddr ino) append buffer count pos = some (t, m') ∧
      Edits g ino m m' ∧
      ((content m ino).Writes buffer count (writeStart m (inodeAddr ino) append pos) t
          (content m' ino) ∨
        (t = ⟨.error .eNoSpc, writeStart m (inodeAddr ino) append pos, []⟩ ∧
          Content.room (content m ino).size <
            Content.room (writeStart m (inodeAddr ino) append pos + count) ∧
          content m' ino = content m ino)) := by
  rw [ospfsWrite_eq]
  generalize writeStart m (inodeAddr ino) append pos = start at hfit hno ⊢
  have hsize : (content m ino).size = oiSize m (inodeAddr ino) := rfl
  rcases Nat.lt_or_ge (oiSize m (inodeAddr ino)) (start + count) with hgt | hle
  · have hext : (content m ino).extend (start + count) =
        (content m ino).resize (start + count) := if_pos hgt
    rw [makeRoom_past hgt (by omega), Nat.mod_eq_of_lt (by omega), Nat.add_comm count start]
    obtain ⟨r, m₁, hrun, hed, ⟨rfl, hc⟩ | ⟨rfl, hroom, hc⟩⟩ := h.changeSize hf hnd hfit hno
    · have hf₁ : Files g m₁ ino := ⟨hf.1, by rw [hed.names.ftypes ino hf.1]; exact hf.2⟩
      have hnd₁ : ¬ IsDir m₁ ino := (isDir_congr (hed.names.ftypes ino hf.1)).not.2 hnd
      have hsize₁ : oiSize m₁ (inodeAddr ino) = start + count := congrArg Content.size hc
      obtain ⟨t, m', ht, hed', hsz, hout, htout, hres⟩ :=
        hed.settled.writeLoop hf₁ hnd₁ hsize₁.ge buffer
      rw [hrun]
      refine ⟨t, m', ht, hed.trans hed', .inl ⟨?_, fun x hx => ?_, htout, hres⟩⟩
      · rw [hsz, hc, hext]
      · rw [hout x hx, hc, hext]
    · rw [hrun]
      refine ⟨_, m₁, rfl, hed, .inr ⟨rfl, ?_, hc⟩⟩
      rw [h.fileBlocks hf] at hroom
      unfold ospfsSize2nblocks at hroom
      unfold Content.room
      rw [hsize]
      omega
  · have hext : (content m ino).extend (start + count) = content m ino := if_neg (by omega)
    rw [makeRoom_within hle]
    obtain ⟨t, m', ht, hed, hsz, hout, htout, hres⟩ := h.writeLoop hf hnd hle buffer
    refine ⟨t, m', ht, hed, .inl ⟨?_, fun x hx => ?_, htout, hres⟩⟩
    · rw [hsz, hext]
    · rw [hout x hx, hext]

end Settled

/-! ## The calls on names -/

/-- What a call on names does to the files: those with links keep what they hold, and a file that
gets its first link has that type, and is empty when it is a regular one. -/
structure Evolves (g : Geometry) (kind : Nat) (m m' : Mem) : Prop where
  settled : Settled g m'
  ftypes : ∀ j, j < g.ninodes → oiNlink m (inodeAddr j) ≠ 0 → oiNlink m' (inodeAddr j) ≠ 0 →
    oiFtype m' (inodeAddr j) = oiFtype m (inodeAddr j)
  old : ∀ j, Regular g m j → oiNlink m (inodeAddr j) ≠ 0 → oiNlink m' (inodeAddr j) ≠ 0 →
    content m' j = content m j
  new : ∀ j, j < g.ninodes → oiNlink m (inodeAddr j) = 0 → oiNlink m' (inodeAddr j) ≠ 0 →
    oiFtype m' (inodeAddr j) = kind ∧ (kind = ftypeReg → content m' j = .empty)

theorem content_of_size_zero (h : oiSize m (inodeAddr j) = 0) : content m j = .empty := by
  have hblocks : fileBlocks m j = 0 := by
    unfold fileBlocks
    rw [h]
    rfl
  refine Content.ext h (funext fun x => if_neg ?_)
  rw [hblocks]
  exact Nat.not_lt_zero _

theorem Evolves.steady (h : Evolves g kind m w) (hs : Settled g m') (h' : Steady g w m') :
    Evolves g kind m m' := by
  refine ⟨hs, fun j hj hl hl' => ?_, fun j hj hl hl' => ?_, fun j hj hl hl' => ?_⟩
  · rw [h'.nlinks j hj] at hl'
    rw [h'.ftypes j hj]
    exact h.ftypes j hj hl hl'
  · rw [h'.nlinks j hj.1] at hl'
    have hj' : Regular g w j := ⟨hj.1, by rw [h.ftypes j hj.1 hl hl']; exact hj.2⟩
    rw [h'.contents j hj']
    exact h.old j hj hl hl'
  · rw [h'.nlinks j hj] at hl'
    obtain ⟨htype, hnew⟩ := h.new j hj hl hl'
    refine ⟨(h'.ftypes j hj).trans htype, fun hk => ?_⟩
    rw [h'.contents j ⟨hj, htype.trans hk⟩]
    exact hnew hk

theorem Evolves.edits (h : Evolves g kind m w) (he : Edits g i w m')
    (h0 : oiNlink w (inodeAddr i) = 0) : Evolves g kind m m' := by
  have hne {j : Nat} (hj : j < g.ninodes) (hl : oiNlink m' (inodeAddr j) ≠ 0) :
      j ≠ i ∧ oiNlink w (inodeAddr j) ≠ 0 := by
    rw [he.names.nlinks j hj] at hl
    refine ⟨?_, hl⟩
    rintro rfl
    exact hl h0
  refine ⟨he.settled, fun j hj hl hl' => ?_, fun j hj hl hl' => ?_, fun j hj hl hl' => ?_⟩
  · rw [he.names.ftypes j hj]
    exact h.ftypes j hj hl (hne hj hl').2
  · obtain ⟨hji, hlw⟩ := hne hj.1 hl'
    have hj' : Regular g w j := ⟨hj.1, by rw [h.ftypes j hj.1 hl hlw]; exact hj.2⟩
    rw [he.others j hj' hji]
    exact h.old j hj hl hlw
  · obtain ⟨hji, hlw⟩ := hne hj hl'
    obtain ⟨htype, hnew⟩ := h.new j hj hl hlw
    refine ⟨(he.names.ftypes j hj).trans htype, fun hk => ?_⟩
    rw [he.others j ⟨hj, htype.trans hk⟩ hji]
    exact hnew hk

theorem Steady.evolves (h : Steady g m w) (h' : Evolves g kind w m') : Evolves g kind m m' := by
  refine ⟨h'.settled, fun j hj hl hl' => ?_, fun j hj hl hl' => ?_, fun j hj h0 hl => ?_⟩
  · rw [← h.nlinks j hj] at hl
    exact (h'.ftypes j hj hl hl').trans (h.ftypes j hj)
  · rw [← h.nlinks j hj.1] at hl
    exact (h'.old j (h.regular.2 hj) hl hl').trans (h.contents j hj)
  · rw [← h.nlinks j hj] at h0
    exact h'.new j hj h0 hl

namespace Settled

variable (h : Settled g m)

include h

theorem evolves_refl : Evolves g kind m m :=
  ⟨h, fun _ _ _ _ => rfl, fun _ _ _ _ => rfl, fun _ _ h0 hl => absurd h0 hl⟩

theorem nameEnters (hd : d < g.ninodes) (hdir : IsDir m d) (hno : StaysInTables m d)
    (hlen : name.length ≤ 123) {b : Bool} (he : NameEnters g d name ino m b m') :
    Settled g m' ∧ Steady g m m' := by
  obtain ⟨r, m₁, hrun, hb, -⟩ := h.tidy.blankEntry (h.dirOk hd hdir) hno
  obtain ⟨h₁, hst₁⟩ := h.blanks hd hdir hb
  cases he with
  | full hrun' =>
    rw [hrun] at hrun'
    cases hrun'
    exact ⟨h₁, hst₁⟩
  | entered hrun' ht _ hk =>
    rw [hrun] at hrun'
    cases hrun'
    obtain ⟨h₂, hst₂⟩ := h₁.entryWrite hd ht.isDir hk fun x hx => writeDirentry_of_ne hlen hx
    exact ⟨h₂, hst₁.trans hst₂⟩

theorem evolves_of_free (hfree : FreeInode g m ino) (hnd : ¬ IsDir w ino)
    (hkind : oiFtype w (inodeAddr ino) = kind)
    (hw : ∀ x, x < inodeAddr ino ∨ inodeAddr ino + 64 ≤ x → w x = m x)
    (hsize : Files g w ino → oiSize w (inodeAddr ino) = 0)
    (hptr : Files g w ino → (Files g m ino ∧
        ∀ x, inodeAddr ino + 16 ≤ x → x < inodeAddr ino + 64 → w x = m x) ∨
      ∀ p, ptr w (inodeAddr ino) p = 0) : Evolves g kind m w := by
  obtain ⟨hset, hcont⟩ := h.of_inode hfree.lt hfree.plain hnd hw (fun hf => .inl (hsize hf))
    fun hf => (hptr hf).imp_right fun hp => ⟨hsize hf, hp⟩
  have hne {j : Nat} (hl : oiNlink m (inodeAddr j) ≠ 0) : j ≠ ino := by
    rintro rfl
    exact hl hfree.nlink
  have hsame (j : Nat) (hne : j ≠ ino) : SameInode m w j := .of_others hw hne
  refine ⟨hset, fun j _ hl _ => (hsame j (hne hl)).ftype, fun j hj hl _ =>
    hcont j hj.files fun he => absurd he (hne hl), fun j hj h0 hl => ?_⟩
  by_cases hji : j = ino
  · subst hji
    exact ⟨hkind, fun hk => content_of_size_zero (hsize (Regular.files ⟨hj, hkind.trans hk⟩))⟩
  · exact absurd ((hsame j hji).nlink.trans h0) hl

/-- `ospfs_create` sets up a file; the pointers it finds are a file's, or none. -/
theorem evolves_initFile (hfree : FreeInode g m ino) (mode : Nat)
    (hclean : oiFtype m (inodeAddr ino) = ftypeSymlink →
      ∀ c < 12, m.get32 (inodeAddr ino + 16 + 4 * c) = 0) :
    Evolves g ftypeReg m (initFile m (inodeAddr ino) mode) := by
  have hset := SetUp.file hfree.lt hfree.plain mode
  have hptrs (x : Nat) (hx : inodeAddr ino + 16 ≤ x) :
      initFile m (inodeAddr ino) mode x = m x := by
    unfold initFile
    rw [Mem.set32_of_ne (by omega), Mem.set32_of_ne (by omega), Mem.set32_of_ne (by omega),
      Mem.set32_of_ne (by omega)]
  refine h.evolves_of_free hfree hset.plain ?_ hset.others (fun _ => ?_) fun _ => ?_
  · unfold initFile oiFtype
    rw [Mem.get32_set32_ne (by omega), Mem.get32_set32_ne (by omega),
      Mem.get32_set32_of_lt (by decide)]
  · unfold initFile oiSize
    rw [Mem.get32_set32_ne (by omega), Mem.get32_set32_ne (by omega),
      Mem.get32_set32_ne (by omega), Mem.get32_set32_of_lt (by omega)]
  · by_cases htype : oiFtype m (inodeAddr ino) = ftypeSymlink
    · refine .inr (ptr_of_words fun c hc => ?_)
      rw [← hclean htype c hc]
      exact Mem.get32_congr fun x hx _ => hptrs x (by omega)
    · exact .inl ⟨⟨hfree.lt, htype⟩, fun x hx _ => hptrs x hx⟩

theorem evolves_initSymlink (hfree : FreeInode g m ino) {symname : Bytes}
    (hlen : symname.length ≤ 51) :
    Evolves g ftypeSymlink m (initSymlink m (inodeAddr ino) symname) := by
  have hset := SetUp.symlink hfree.lt hfree.plain hlen
  have htype : oiFtype (initSymlink m (inodeAddr ino) symname) (inodeAddr ino) = ftypeSymlink := by
    unfold initSymlink oiFtype
    rw [Mem.get32_store_ne (by omega), Mem.get32_set32_of_lt (by decide)]
  exact h.evolves_of_free hfree hset.plain htype hset.others (fun hf => absurd htype hf.2)
    fun hf => absurd htype hf.2

theorem evolves_creates (hd : d < g.ninodes) (hdir : IsDir m d) (hno : StaysInTables m d)
    (hlen : name.length ≤ 123) {f : Nat → Mem} {r : Ret}
    (hset : ∀ ino, findFreeInode m = some ino → FreeInode g m ino →
      SetUp g ino m (f ino) ∧ Evolves g kind m (f ino))
    (hc : Creates g d name f m r m') : Evolves g kind m m' := by
  have henter {ino : Nat} {b : Bool} (hi : findFreeInode m = some ino) (hfree : FreeInode g m ino)
      (he : NameEnters g d name ino (f ino) b m') : Evolves g kind m m' := by
    obtain ⟨hset, hev⟩ := hset ino hi hfree
    have hne : d ≠ ino := by
      rintro rfl
      exact hfree.plain hdir
    have hsame : SameInode m (f ino) d := .of_others hset.others hne
    obtain ⟨hs', hst'⟩ := hev.settled.nameEnters hd (hsame.isDir.2 hdir)
      ((h.standing.entries_of_inode hset.lt hd hdir hne hset.others).2 hno) hlen he
    exact hev.steady hs' hst'
  cases hc with
  | taken _ => exact h.evolves_refl
  | exhausted _ _ => exact h.evolves_refl
  | full _ hi hfree he => exact henter hi hfree he
  | entered _ hi hfree he _ => exact henter hi hfree he

theorem setNlink_ftypes (hi : i < g.ninodes) (hnd : ¬ IsDir m i) (v : Nat) {j : Nat}
    (hj : j < g.ninodes) :
    oiFtype (m.set32 (inodeAddr i + 8) v) (inodeAddr j) = oiFtype m (inodeAddr j) :=
  (h.standing.nlink_set hi hnd v).2.1 j hj

theorem evolves_setNlink (hi : i < g.ninodes) (hnd : ¬ IsDir m i)
    (hlive : oiNlink m (inodeAddr i) ≠ 0) (v : Nat) :
    Evolves g kind m (m.set32 (inodeAddr i + 8) v) := by
  obtain ⟨hset, hcont⟩ := h.setNlink hi hnd v
  obtain ⟨-, hftypes, hnlinks⟩ := h.standing.nlink_set hi hnd v
  refine ⟨hset, fun j hj _ _ => hftypes j hj, fun j hj _ _ => hcont j hj.files,
    fun j hj h0 hl => ?_⟩
  have hji : j ≠ i := by
    rintro rfl
    exact hlive h0
  exact absurd ((hnlinks j hj hji).trans h0) hl

theorem evolves_linksTo (hd : d < g.ninodes) (hdir : IsDir m d) (hno : StaysInTables m d)
    (hi : i < g.ninodes) (hnd : ¬ IsDir m i) (hlive : oiNlink m (inodeAddr i) ≠ 0) {r : Ret}
    (hl : LinksTo g d name i m r m') : Evolves g kind m m' := by
  cases hl with
  | tooLong _ => exact h.evolves_refl
  | taken _ => exact h.evolves_refl
  | full _ he =>
    cases he with
    | full hrun ht hs =>
      obtain ⟨r, m₁, hrun', hb, -⟩ := h.tidy.blankEntry (h.dirOk hd hdir) hno
      rw [hrun'] at hrun
      cases hrun
      obtain ⟨h₁, hst₁⟩ := h.blanks hd hdir hb
      exact h.evolves_refl.steady h₁ hst₁
  | @entered w hlen _ he =>
    obtain ⟨h₁, hst⟩ := h.nameEnters hd hdir hno hlen he
    have hnd₁ : ¬ IsDir w i := (isDir_congr (hst.ftypes i hi)).not.2 hnd
    exact hst.evolves (h₁.evolves_setNlink hi hnd₁ (by rwa [hst.nlinks i hi]) _)

theorem evolves_unlinks (hd : d < g.ninodes) (hdir : IsDir m d) (hk : k < entries m d)
    (hi : i < g.ninodes) (hnd : ¬ IsDir m i) (hlive : oiNlink m (inodeAddr i) ≠ 0)
    (hu : Unlinks g d k i m m') : Evolves g kind m m' := by
  have hothers (x : Nat) (hx : x < entryAddr m d k ∨ entryAddr m d k + 128 ≤ x) :
      m.set32 (entryAddr m d k) 0 x = m x := Mem.set32_of_ne (by omega)
  obtain ⟨h₁, hst⟩ := h.entryWrite hd hdir hk hothers
  have hnd₁ : ¬ IsDir (m.set32 (entryAddr m d k) 0) i := (isDir_congr (hst.ftypes i hi)).not.2 hnd
  have hcount (v : Nat) : Evolves g kind (m.set32 (entryAddr m d k) 0) _ :=
    h₁.evolves_setNlink hi hnd₁ (by rwa [hst.nlinks i hi]) v
  cases hu with
  | kept hw =>
    subst hw
    exact hst.evolves (hcount _)
  | @last w m' r hw hlast hfile hrun =>
    subst hw
    have htypes := (h₁.setNlink_ftypes hi hnd₁ (oiNlink (m.set32 (entryAddr m d k) 0)
      (inodeAddr i) + (2 ^ 32 - 1)) hi).trans (hst.ftypes i hi)
    have hev := hcount (oiNlink (m.set32 (entryAddr m d k) 0) (inodeAddr i) + (2 ^ 32 - 1))
    generalize Mem.set32 _ (inodeAddr i + 8) _ = m₂ at hrun hlast htypes hev
    have hnd₂ : ¬ IsDir m₂ i := (isDir_congr htypes).not.2 hnd
    obtain ⟨r', m₃, hrun', hed, -⟩ := hev.settled.changeSize ⟨hi, htypes.trans_ne hfile⟩ hnd₂
      (by decide : 0 + 1023 < 2 ^ 32) fun _ _ hlt => absurd hlt (Nat.not_lt_zero _)
    rw [hrun] at hrun'
    cases hrun'
    exact hst.evolves (hev.edits hed hlast)

end Settled

def DirCall.madeType : DirCall → Nat
  | enter _ (.create _ _ _) => ftypeReg
  | _ => ftypeSymlink

/-- `ospfs_create` leaves the pointers as they are. Those of an inode that was a symbolic link,
whose text stood there, are to be 0. -/
def DirCall.Unmarked (m : Mem) : DirCall → Prop
  | enter _ (.create _ _ _) => ∀ i, findFreeInode m = some i → ∀ oi, ospfsInode m i = some oi →
      oiFtype m oi = ftypeSymlink → ∀ c < 12, m.get32 (oi + 16 + 4 * c) = 0
  | _ => True

theorem Settled.evolves {lost : Finset Nat} (h : Settled g m) (ho : Tallied g m lost) {c : DirCall}
    (hi : c.Issued m) (hcur : c.Current m) (hc : c.Contained m) (hu : c.Unmarked m) {r : Ret}
    (hr : c.run m = some (r, m')) : Evolves g c.madeType m m' := by
  cases c with
  | unlink d name i =>
    obtain ⟨hd, hdir⟩ := h.standing.isDirectory_iff.1 hi.1
    obtain ⟨k, hk, hscan, hent⟩ := ho.looked_up hd hdir hcur.1 hcur.2
    obtain ⟨h2, hlt, hpos⟩ := ho.named hd hent
    have hnd : ¬ IsDir m i := fun h' => hi.2 (h.standing.isDirectory_iff.2 ⟨hlt, h'⟩)
    obtain ⟨m₁, hrun, hunl⟩ := h.standing.unlink_spec hd hdir hlt hnd hk hscan
    obtain ⟨-, rfl⟩ : _ ∧ m₁ = m' := by simpa using hrun.symm.trans hr
    exact h.evolves_unlinks hd hdir hk hlt hnd (ho.live h2 hlt hpos) hunl
  | enter d c =>
    cases c with
    | create name mode newInode =>
      obtain ⟨hd, hdir⟩ := h.standing.isDirectory_iff.1 hi.1
      obtain ⟨r', m₁, hrun, hcr, -⟩ := h.standing.create_spec hd hdir hc hi.2 mode newInode
      obtain ⟨-, rfl⟩ : _ ∧ m₁ = m' := by simpa using hrun.symm.trans hr
      exact h.evolves_creates hd hdir hc hi.2 (fun ino hino hfree =>
        ⟨.file hfree.lt hfree.plain mode, h.evolves_initFile hfree mode fun htype =>
          hu ino hino _ (h.tidy.ospfsInode hfree.lt) htype⟩) hcr
    | symlink name symname newInode =>
      obtain ⟨hd, hdir⟩ := h.standing.isDirectory_iff.1 hi.1
      obtain ⟨r', m₁, hrun, hcase, -⟩ := h.standing.symlink_spec hd hdir hc name symname newInode
      obtain ⟨-, rfl⟩ : _ ∧ m₁ = m' := by simpa using hrun.symm.trans hr
      rcases hcase with ⟨-, -, rfl⟩ | ⟨hlen, hlen', hcr⟩
      · exact h.evolves_refl
      · exact h.evolves_creates hd hdir hc hlen (fun ino _ hfree =>
          ⟨.symlink hfree.lt hfree.plain hlen', h.evolves_initSymlink hfree hlen'⟩) hcr
    | link i name =>
      obtain ⟨hd, hdir⟩ := h.standing.isDirectory_iff.1 hi.1
      obtain ⟨-, d', nm, hdir', hz', hl⟩ := hcur
      obtain ⟨hd', hdd'⟩ := h.standing.isDirectory_iff.1 hdir'
      obtain ⟨k, -, -, hent⟩ := ho.looked_up hd' hdd' hz' hl
      obtain ⟨h2, hlt, hpos⟩ := ho.named hd' hent
      have hnd : ¬ IsDir m i := fun h' => hi.2 (h.standing.isDirectory_iff.2 ⟨hlt, h'⟩)
      obtain ⟨r', m₁, hrun, hlk⟩ := h.standing.link_spec hd hdir hc name hlt
      obtain ⟨-, rfl⟩ : _ ∧ m₁ = m' := by simpa using hrun.symm.trans hr
      exact h.evolves_linksTo hd hdir hc hlt hnd (ho.live h2 hlt hpos) hlk

end OsLabs.Ospfs
