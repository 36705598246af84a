import Mathlib.Data.List.TakeWhile
import OsLabs.Osp2p.Lookahead
import OsLabs.Osp2p.Capacity

/-!
# The file names of a task

Four copies fill the fields `filename` and `disk_filename` of a `task_t`, each of
`FILENAMESIZ` bytes: `start_download` copies the name of the command line,
`task_download` copies it again and adds a suffix, and the `%s` of `task_upload` takes
what the peer has sent. `extent` counts the bytes that a copy stores from the start of
its field on, the NUL among them. What lies in memory behind a request may be anything.
-/

namespace OsLabs.Osp2p

open Scan

def fileNameSiz : Nat := 256

/-- A string in a field, and how many bytes the copy has stored. -/
structure Copied where
  extent : Nat
  str : Bytes

def strcpy (s : Bytes) : Copied := ⟨s.length + 1, s⟩

/-! ## Downloads -/

def startFilename (filename : Bytes) : Copied :=
  if filename.length > fileNameSiz then
    -- strncpy fills the field, then its last byte is cleared
    ⟨fileNameSiz, filename.take (fileNameSiz - 1)⟩
  else strcpy filename

inductive OpenResult where
  | opened
  | exists
  | failed
  deriving DecidableEq, Repr

/-- The `i`-th name for the local file. -/
def diskName (filename : Bytes) (i : Nat) : Bytes :=
  if i = 0 then filename else filename ++ byte '~' :: (decimal i ++ [byte '~'])

/-- The copies to `disk_filename` from the `i`-th name on, with `n` names left to try. -/
def diskCopies (filename : Bytes) (opens : Nat → OpenResult) : (n i : Nat) → List Copied
  | 0, _ => []
  | n + 1, i =>
    strcpy (diskName filename i) ::
      if opens i = .exists then diskCopies filename opens n (i + 1) else []

/-! ## Uploads -/

/-- How many bytes the loop of `%s` and the assignment behind it store. -/
def storesString (len : Nat) : Nat → Bytes → Nat
  | pos, [] => if pos = len then 1 else 0
  | pos, c :: mem =>
    if pos = len ∨ isspace c then 1
    else
      match isQuoted c mem with
      | none => 0
      | some false => storesString len (pos + 1) mem + 1
      | some true =>
        match mem with
        | _ :: _ :: mem => storesString len (pos + 3) mem + 1
        | _ => 0

/-- What the scan of `task_upload` stores in `filename`: the format has one `%s`. -/
def uploadExtents (request after : Bytes) : List Nat :=
  (wordsScanned false getFormat request).map fun t =>
    storesString request.length (request.length - t.length) (t ++ after)

/-- Everything stored for the name of the command line and for the request of a peer fits,
whatever files there are and whatever lies behind the request. -/
structure FilenamesFit (filename request : Bytes) : Prop where
  start : (startFilename filename).extent ≤ fileNameSiz
  download : ∀ opens, ∀ c ∈ diskCopies (startFilename filename).str opens 50 0,
    c.extent ≤ fileNameSiz
  upload : ∀ after, ∀ n ∈ uploadExtents request after, n ≤ fileNameSiz

section

variable {filename s t w rest after mem : Bytes} {opens : Nat → OpenResult} {len pos n i : Nat}
  {c : UInt8} {x : Copied}

/-! ## The suffix -/

theorem length_diskName (h : 0 < i) (h' : i < 50) :
    (diskName filename i).length = filename.length + if i < 10 then 3 else 4 := by
  have h1 := length_decimal (k := 1) i (by decide)
  have h2 := length_decimal (k := 2) i (by decide)
  have hpos : 0 < (decimal i).length := by
    obtain ⟨d, l, -, hl⟩ := decimal_head i
    simp [hl]
  rw [diskName, if_neg (by omega)]
  simp only [List.length_append, List.length_cons, List.length_nil]
  split <;> omega

theorem length_diskName_le (h : i < 50) : (diskName filename i).length ≤ filename.length + 4 := by
  rcases Nat.eq_zero_or_pos i with rfl | hi
  · rw [diskName, if_pos rfl]
    omega
  · rw [length_diskName hi h]
    split <;> omega

theorem mem_diskCopies : ∀ {n i}, x ∈ diskCopies filename opens n i →
    ∃ j < i + n, x = strcpy (diskName filename j)
  | 0, i, h => nomatch h
  | n + 1, i, h => by
    rcases List.mem_cons.mp h with rfl | h
    · exact ⟨i, by omega, rfl⟩
    · split at h
      · obtain ⟨j, hj, he⟩ := mem_diskCopies h
        exact ⟨j, by omega, he⟩
      · cases h

theorem diskName_mem_diskCopies : ∀ {n i j}, i ≤ j → j < i + n →
    strcpy (diskName filename j) ∈ diskCopies filename (fun _ => .exists) n i
  | 0, i, j, h, h' => by omega
  | n + 1, i, j, h, h' => by
    rcases Nat.eq_or_lt_of_le h with rfl | hlt
    · exact List.mem_cons_self
    · exact List.mem_cons_of_mem _ (diskName_mem_diskCopies hlt (by omega))

/-- The name of the command line fits with the longest suffix. -/
theorem download_iff : ((startFilename filename).extent ≤ fileNameSiz ∧
    ∀ opens, ∀ c ∈ diskCopies (startFilename filename).str opens 50 0, c.extent ≤ fileNameSiz) ↔
      filename.length ≤ 251 := by
  constructor
  · rintro ⟨h1, h2⟩
    have h3 := h2 _ _ (diskName_mem_diskCopies (i := 0) (j := 10) (by decide) (by decide))
    have hlen : (diskName (startFilename filename).str 10).length = _ + 4 :=
      length_diskName (by decide) (by decide)
    simp only [strcpy, hlen] at h3
    revert h1 h3
    unfold startFilename strcpy fileNameSiz
    split <;> simp only [List.length_take] <;> omega
  · intro h
    have hs : startFilename filename = strcpy filename := by
      unfold startFilename fileNameSiz
      rw [if_neg (by omega)]
    rw [hs]
    refine ⟨show filename.length + 1 ≤ 256 by omega, fun opens c hc => ?_⟩
    obtain ⟨j, hj, rfl⟩ := mem_diskCopies hc
    have : (diskName filename j).length ≤ filename.length + 4 := length_diskName_le (by omega)
    show (diskName filename j).length + 1 ≤ 256
    omega

/-! ## The word of a request -/

theorem storesString_cons (len pos : Nat) (c : UInt8) (mem : Bytes) :
    storesString len pos (c :: mem) =
      if pos = len ∨ isspace c then 1
      else
        match isQuoted c mem with
        | none => 0
        | some false => storesString len (pos + 1) mem + 1
        | some true =>
          match mem with
          | _ :: _ :: mem => storesString len (pos + 3) mem + 1
          | _ => 0 := by
  rw [storesString.eq_def]
  rfl

theorem storesString_eq : ∀ {mem pos w p}, scanStringAt len pos mem = some (w, p) →
    storesString len pos mem = w.length + 1
  | [], pos, w, p, h => by
    rw [scanStringAt] at h
    rw [storesString]
    split at h
    · next hp =>
      cases h
      rw [if_pos hp]
      rfl
    · cases h
  | c :: mem, pos, w, p, h => by
    rw [scanStringAt_cons] at h
    rw [storesString_cons]
    by_cases hp : pos = len ∨ isspace c
    · rw [if_pos hp] at h ⊢
      cases h
      rfl
    · rw [if_neg hp] at h ⊢
      cases hq : isQuoted c mem with
      | none =>
        rw [hq] at h
        cases h
      | some quoted =>
        rw [hq] at h
        cases quoted with
        | false =>
          obtain ⟨r, hr, he⟩ := Option.map_eq_some_iff.mp h
          cases he
          exact congrArg (· + 1) (storesString_eq hr)
        | true =>
          rcases mem with _ | ⟨c1, _ | ⟨c2, mem⟩⟩
          · cases h
          · cases h
          · obtain ⟨r, hr, he⟩ := Option.map_eq_some_iff.mp h
            cases he
            exact congrArg (· + 1) (storesString_eq hr)

theorem storesString_behind : ∀ {mem pos}, len < pos →
    (∀ c ∈ mem, isspace c = false ∧ c ≠ byte '%') → storesString len pos mem = mem.length
  | [], pos, h, _ => by
    rw [storesString, if_neg (by omega)]
    rfl
  | c :: mem, pos, h, hmem => by
    obtain ⟨hs, hc⟩ := hmem c List.mem_cons_self
    have hgo : ¬ (pos = len ∨ isspace c = true) := by
      rw [hs]
      simp
      omega
    rw [storesString_cons, if_neg hgo, isQuoted_of_ne hc]
    exact congrArg (· + 1)
      (storesString_behind (by omega) fun x hx => hmem x (List.mem_cons_of_mem _ hx))

def letters : Bytes := List.replicate 256 (byte 'a')

theorem letters_plain : ∀ c ∈ letters, isspace c = false ∧ c ≠ byte '%' := by
  intro c hc
  obtain rfl := List.eq_of_mem_replicate hc
  decide

/-- Memory that makes a word that is cut off a long one. -/
def longAfter : Bytes := byte '4' :: byte '1' :: letters

theorem goes_on {c : UInt8} (h : pos + (c :: s).length = len) (hc : isspace c = false) :
    ¬ (pos = len ∨ isspace c = true) := by
  rw [List.length_cons] at h
  rw [hc]
  simp
  omega

theorem storesString_cutOff (h : pos + s.length = len) (hc : CutOff s) :
    fileNameSiz < storesString len pos (s ++ longAfter) := by
  induction s using word_induct generalizing pos with
  | nil => simp [CutOff] at hc
  | space c s hspace => exact absurd hc (cutOff_of_space hspace)
  | cut c s hspace hq =>
    -- the escape is completed by the memory behind, and the pointer passes the end
    have hgo := goes_on h hspace
    rw [List.cons_append, storesString_cons, if_neg hgo]
    obtain ⟨rfl, rfl | ⟨x, hx, rfl⟩⟩ := isQuoted_nil_none.mp hq
    · have : storesString len (pos + 3) letters = letters.length := storesString_behind
        (by simp at h; omega) letters_plain
      show fileNameSiz < storesString len (pos + 3) letters + 1
      rw [this, letters, List.length_replicate]
      decide
    · have : storesString len (pos + 3) (byte '1' :: letters) = _ := storesString_behind
        (by simp at h; omega) (by
          rw [List.forall_mem_cons]
          exact ⟨by decide, letters_plain⟩)
      rw [show isQuoted (byte '%') ([x] ++ longAfter) = some true by
        simp [isQuoted, longAfter, hx]; decide]
      show fileNameSiz < storesString len (pos + 3) (byte '1' :: letters) + 1
      rw [this, List.length_cons, letters, List.length_replicate]
      decide
  | plain c s hspace hq ih =>
    have hgo := goes_on h hspace
    rw [List.cons_append, storesString_cons, if_neg hgo, isQuoted_append hq longAfter]
    rw [List.length_cons] at h
    exact Nat.lt_succ_of_lt (ih (by omega) ((cutOff_cons hspace (by simp [hq])).mp hc))
  | quoted c c1 c2 s hspace hq ih =>
    have hgo := goes_on h hspace
    rw [List.cons_append, storesString_cons, if_neg hgo, isQuoted_append hq longAfter]
    simp only [List.length_cons] at h
    exact Nat.lt_succ_of_lt (ih (by omega) ((cutOff_quoted hspace hq).mp hc))

/-- The word fits, whatever lies behind the message. -/
theorem storesString_le_iff (h : pos + t.length = len) :
    (∀ after, storesString len pos (t ++ after) ≤ fileNameSiz) ↔
      ¬ CutOff t ∧ (unquote (t.takeWhile (!isspace ·))).length < fileNameSiz := by
  by_cases hc : CutOff t
  · refine iff_of_false (fun hall => ?_) fun hn => hn.1 hc
    exact Nat.not_lt_of_le (hall longAfter) (storesString_cutOff h hc)
  · obtain ⟨⟨w, rest⟩, hr⟩ := Option.ne_none_iff_exists'.mp (mt (cutOff_iff t).mp hc)
    obtain ⟨rfl, -⟩ := scanString_word hr
    have hall (after : Bytes) :
        storesString len pos (t ++ after) = (unquote (t.takeWhile (!isspace ·))).length + 1 := by
      have hstands : Stands len after pos (t ++ after) t := ⟨h, rfl⟩
      obtain ⟨pos', mem', he, -⟩ := hstands.scanString hr
      exact storesString_eq he
    simp only [hall, hc, not_false_iff, true_and]
    exact forall_const Bytes

theorem scanAddr_length : ∀ {i value s v rest}, scanAddr i value s = some (v, rest) →
    rest.length ≤ s.length := by
  intro i
  induction i with
  | zero =>
    intro value s v rest h
    rw [scanAddr_zero] at h
    obtain ⟨⟨b, u⟩, hb, he⟩ := Option.map_eq_some_iff.mp h
    cases he
    obtain ⟨w, rfl, -⟩ := octet_sound hb
    simp
  | succ i ih =>
    intro value s v rest h
    rw [scanAddr_succ] at h
    obtain ⟨⟨b, u⟩, hb, hrest⟩ := Option.bind_eq_some_iff.mp h
    obtain ⟨w, rfl, -⟩ := octetDot_sound hb
    have : rest.length ≤ u.length := ih hrest
    simp only [List.length_append, List.length_cons]
    omega

theorem scanInt_length {v : Nat} (h : scanInt s = some (v, rest)) : rest.length ≤ s.length := by
  have hlen : (scanWhile intStep 0 s).2.length ≤ s.length := length_scanWhile_le s 0
  rw [scanInt] at h
  split at h
  · dsimp only at h
    split at h
    · cases h
    · cases h
      exact hlen
  · cases h

theorem wordsScanned_length (inSpace : Bool) (format : List Char) (s : Bytes) :
    ∀ t ∈ wordsScanned inSpace format s, t.length ≤ s.length := by
  have htail (u : Bytes) : u.tail.length ≤ u.length := by simp
  fun_induction wordsScanned inSpace format s with
  | case2 inSpace format s ih =>
    have hdrop := (List.dropWhile_sublist (l := s) (!isspace ·)).length_le
    rw [List.forall_mem_cons]
    exact ⟨Nat.le_refl _, fun t ht => Nat.le_trans (ih t ht) hdrop⟩
  | case4 inSpace format s v rest hs ih =>
    exact fun t ht => Nat.le_trans (ih t ht) (scanAddr_length hs)
  | case6 inSpace format s v rest hs ih =>
    exact fun t ht => Nat.le_trans (ih t ht) (scanInt_length hs)
  | case7 inSpace format s ih => exact ih
  | case8 inSpace format s h ih => exact fun t ht => Nat.le_trans (ih t ht) (htail s)
  | case10 c format s h1 h2 h3 h4 h5 hs ih => exact ih
  | case11 inSpace c format s h1 h2 h3 h4 h5 hs hin hany ih =>
    exact fun t ht => Nat.le_trans (ih t ht) (List.dropWhile_sublist (l := s) isspace).length_le
  | case13 inSpace c format s h1 h2 h3 h4 h5 hs h ih =>
    exact fun t ht => Nat.le_trans (ih t ht) (htail s)
  | case1 | case3 | case5 | case9 | case12 | case14 => exact fun t ht => nomatch ht

end

/-- **The names fit** iff that of the command line has at most 251 bytes and the word that the
request asks for is not cut off and has, unquoted, at most 255. -/
theorem filenamesFit_iff (filename request : Bytes) :
    FilenamesFit filename request ↔ filename.length ≤ 251 ∧
      ∀ t ∈ wordsScanned false getFormat request,
        ¬ CutOff t ∧ (unquote (t.takeWhile (!isspace ·))).length < fileNameSiz := by
  have hupload : (∀ after, ∀ n ∈ uploadExtents request after, n ≤ fileNameSiz) ↔
      ∀ t ∈ wordsScanned false getFormat request,
        ¬ CutOff t ∧ (unquote (t.takeWhile (!isspace ·))).length < fileNameSiz := by
    simp only [uploadExtents, List.forall_mem_map]
    rw [forall_comm]
    refine forall_congr' fun t => ?_
    rw [forall_comm]
    refine forall_congr' fun ht => storesString_le_iff ?_
    have := wordsScanned_length false getFormat request t ht
    omega
  constructor
  · rintro ⟨h1, h2, h3⟩
    exact ⟨download_iff.mp ⟨h1, h2⟩, hupload.mp h3⟩
  · rintro ⟨h1, h2⟩
    obtain ⟨h3, h4⟩ := download_iff.mpr h1
    exact ⟨h3, h4, hupload.mpr h2⟩

theorem unquote_plain : ∀ {s : Bytes}, (∀ c ∈ s, c ≠ byte '%') → unquote s = s
  | [], _ => rfl
  | [_], _ => rfl
  | [_, _], _ => rfl
  | c :: c1 :: c2 :: s, h => by
    rw [unquote, if_neg fun hq => h c List.mem_cons_self hq.1,
      unquote_plain fun x hx => h x (List.mem_cons_of_mem _ hx)]

theorem requestWord_mem {t : Bytes} (h : ∀ c ∈ t.head?, isspace c = false) :
    t ∈ wordsScanned false getFormat (['G', 'E', 'T', ' '].map byte ++ t) := by
  have hscan : wordsScanned false getFormat (['G', 'E', 'T', ' '].map byte ++ t) =
      t.dropWhile isspace ::
        wordsScanned false [' ', 'O', 'S', 'P', '2', 'P', '\n']
          ((t.dropWhile isspace).dropWhile (!isspace ·)) := rfl
  have hdrop : t.dropWhile isspace = t := by
    rcases t with _ | ⟨c, t⟩
    · rfl
    · exact List.dropWhile_cons_of_neg (by simp [h c rfl])
  rw [hscan, hdrop]
  exact List.mem_cons_self

/-- The NUL of a name of 256 bytes, a suffix behind a name of 252 bytes, and the word of a
request of 256 letters are stored behind the fields. -/
theorem names_not_fit : ¬ FilenamesFit (List.replicate 256 (byte 'a')) [] ∧
    ¬ FilenamesFit (List.replicate 252 (byte 'a')) [] ∧
    ¬ FilenamesFit [] (['G', 'E', 'T', ' '].map byte ++ letters) := by
  have hname (n : Nat) (hn : 251 < n) :
      ¬ FilenamesFit (List.replicate n (byte 'a')) [] := fun h => by
    have := download_iff.mp ⟨h.start, h.download⟩
    rw [List.length_replicate] at this
    omega
  refine ⟨hname 256 (by decide), hname 252 (by decide), fun h => ?_⟩
  have hmem : letters ∈
      wordsScanned false getFormat (['G', 'E', 'T', ' '].map byte ++ letters) := by
    refine requestWord_mem fun c hc => (letters_plain c ?_).1
    exact List.mem_of_mem_head? hc
  have hlen : ['G', 'E', 'T', ' '].length + letters.length =
      (['G', 'E', 'T', ' '].map byte ++ letters).length := by
    rw [List.length_append, List.length_map]
  have hfit := ((storesString_le_iff hlen).mp fun after =>
    h.upload after _ (List.mem_map.mpr ⟨letters, hmem, ?_⟩)).2
  · rw [List.takeWhile_eq_self_iff.mpr fun c hc => by simp [(letters_plain c hc).1],
      unquote_plain fun c hc => (letters_plain c hc).2, letters, List.length_replicate] at hfit
    exact absurd hfit (by decide)
  · rw [← hlen, Nat.add_sub_cancel]

end OsLabs.Osp2p
