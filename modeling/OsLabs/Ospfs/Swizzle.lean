import OsLabs.Ospfs.Cache

/-!
# OSPFS: the formatter's blocks on hosts of either byte order

`swizzle` to `swizzleblock` of `ospfsformat.c` with the host's byte order as a parameter, which
words `swizzleblock` turns round on a big-endian host, and what a block is there when the words
of text are marked.
-/

namespace OsLabs.Ospfs

/-! ## Words -/

inductive ByteOrder where
  | little
  | big
  deriving DecidableEq

/-- The bytes of a word the other way round. -/
def reversed (u : Mem) (a : Nat) : Mem := fun x =>
  if a ≤ x ∧ x < a + 4 then u (2 * a + 3 - x) else u x

namespace ByteOrder

def load (b : ByteOrder) (u : Mem) (a : Nat) : Nat :=
  match b with
  | little => u.get32 a
  | big => (reversed u a).get32 a

def store (b : ByteOrder) (u : Mem) (a v : Nat) : Mem :=
  match b with
  | little => u.set32 a v
  | big => reversed (u.set32 a v) a

variable (b : ByteOrder)

/-- `swizzle`: the bytes of the host's word, lowest first. -/
def swizzle (u : Mem) (a : Nat) : Mem := u.set32 a (b.load u a)

def swizzleinode (u : Mem) (a : Nat) : Mem :=
  if b.load u (a + 8) = 0 then u
  else
    let u := [a, a + 4, a + 12, a + 8].foldl b.swizzle u
    let u := ((List.range 10).map fun i => a + 16 + 4 * i).foldl b.swizzle u
    b.swizzle (b.swizzle u (a + 56)) (a + 60)

def swizzledirentry (u : Mem) (a : Nat) : Mem := if u (a + 4) = 0 then u else b.swizzle u a

def swizzleblock (type : BlockType) (u : Mem) : Mem :=
  match type with
  | .super => [0, 4, 8, 12].foldl b.swizzle u
  | .dir => ((List.range 8).map fun i => 128 * i).foldl b.swizzledirentry u
  | .file => u
  | .bits => ((List.range 256).map fun i => 4 * i).foldl b.swizzle u
  | .inodes => ((List.range 16).map fun i => 64 * i).foldl b.swizzleinode u

end ByteOrder

/-! ## What `swizzleblock` turns round -/

/-- The place of a byte in its word, counted from the other end. -/
def opposite (x : Nat) : Nat := 4 * (x / 4) + (3 - x % 4)

theorem opposite_div (x : Nat) : opposite x / 4 = x / 4 := by
  unfold opposite
  omega

theorem opposite_opposite (x : Nat) : opposite (opposite x) = x := by
  unfold opposite
  omega

/-- On a big-endian host `swizzleblock` turns this word of the block round. -/
def turned (type : BlockType) (u : Mem) (w : Nat) : Bool :=
  match type with
  | .super => decide (w < 4)
  | .dir => decide (w < 256 ∧ w % 32 = 0 ∧ u (4 * w + 4) ≠ 0)
  | .file => false
  | .bits => decide (w < 256)
  | .inodes => decide (w < 256 ∧ u.get32 (64 * (w / 16) + 8) ≠ 0)

variable {u v : Mem} {a i w x : Nat} {type : BlockType}

theorem reversed_apply : reversed u (4 * w) x = if x / 4 = w then u (opposite x) else u x := by
  unfold reversed opposite
  by_cases hx : x / 4 = w
  · rw [if_pos (by omega), if_pos hx]
    congr 1
    omega
  · rw [if_neg (by omega), if_neg hx]

theorem big_swizzle : ByteOrder.big.swizzle u a = reversed u a := by
  funext x
  by_cases hx : a ≤ x ∧ x < a + 4
  · have hbyte : (u.set32 a ((reversed u a).get32 a)) (a + (x - a)) = reversed u a (a + (x - a)) :=
      Mem.byte_of_get32 (Mem.get32_set32_of_lt Mem.get32_lt) (by omega)
    rwa [Nat.add_sub_cancel' hx.1] at hbyte
  · refine (Mem.set32_of_ne (by omega)).trans ?_
    unfold reversed
    rw [if_neg hx]

theorem get32_eq_zero : u.get32 a = 0 ↔ ∀ i < 4, u (a + i) = 0 := by
  constructor
  · intro h i hi
    have hz : Mem.get32 (fun _ => 0) a = 0 := Mem.get32_of_zero fun _ _ => rfl
    exact Mem.byte_of_get32 (m := fun _ => 0) (a := a) (h.trans hz.symm) hi
  · exact Mem.get32_of_zero

theorem get32_eq_zero_of_turned (h : ∀ i < 4, v (a + i) = u (a + (3 - i))) :
    v.get32 a = 0 ↔ u.get32 a = 0 := by
  rw [get32_eq_zero, get32_eq_zero]
  constructor
  · intro h0 i hi
    have := h0 (3 - i) (by omega)
    rwa [h _ (by omega), show 3 - (3 - i) = i by omega] at this
  · intro h0 i hi
    rw [h i hi]
    exact h0 _ (by omega)

theorem big_load_eq_zero : ByteOrder.big.load u a = 0 ↔ u.get32 a = 0 := by
  refine get32_eq_zero_of_turned fun i hi => ?_
  unfold reversed
  rw [if_pos (by omega)]
  congr 1
  omega

/-- Steps that each turn words of their own round, as a test on other words says. -/
theorem foldl_turns {f : Mem → Nat → Mem} {A : Nat → Nat → Prop} {c : Mem → Nat → Prop}
    [∀ i w, Decidable (A i w)] [∀ u, DecidablePred (c u)]
    (hf : ∀ u i x, f u i x = if A i (x / 4) ∧ c u i then u (opposite x) else u x)
    (hA : ∀ i j w, A i w → A j w → i = j) (hc : ∀ u i j, j ≠ i → (c (f u j) i ↔ c u i))
    {l : List Nat} (hl : l.Nodup) (u : Mem) (x : Nat) :
    l.foldl f u x = if ∃ i ∈ l, A i (x / 4) ∧ c u i then u (opposite x) else u x := by
  induction l generalizing u with
  | nil => simp
  | cons j l ih =>
    obtain ⟨hj, hl⟩ := List.nodup_cons.1 hl
    have hiff : (∃ i ∈ l, A i (x / 4) ∧ c (f u j) i) ↔ ∃ i ∈ l, A i (x / 4) ∧ c u i := by
      refine exists_congr fun i => and_congr_right fun hi => and_congr_right fun _ => ?_
      refine hc u i j ?_
      rintro rfl
      exact hj hi
    rw [List.foldl_cons, ih hl, hf, hf, opposite_div, opposite_opposite]
    by_cases hrest : ∃ i ∈ l, A i (x / 4) ∧ c u i
    · have hno : ¬ (A j (x / 4) ∧ c u j) := by
        rintro ⟨hAj, -⟩
        obtain ⟨i, hi, hAi, -⟩ := hrest
        exact hj (hA j i _ hAj hAi ▸ hi)
      obtain ⟨i, hi, hi'⟩ := hrest
      rw [if_pos (hiff.2 ⟨i, hi, hi'⟩), if_neg hno, if_pos ⟨i, List.mem_cons_of_mem _ hi, hi'⟩]
    · rw [if_neg fun h => hrest (hiff.1 h)]
      congr 1
      rw [List.exists_mem_cons_iff, or_iff_left hrest]

/-- Words of their own turned round one after the other. -/
theorem foldl_swizzle {l : List Nat} (hl : l.Nodup) :
    (l.map (4 * ·)).foldl ByteOrder.big.swizzle u x =
      if x / 4 ∈ l then u (opposite x) else u x := by
  rw [List.foldl_map, foldl_turns (A := fun i w => w = i) (c := fun _ _ => True)
    (fun u i x => ?_) (fun i j w hi hj => hi.symm.trans hj) (fun _ _ _ _ => Iff.rfl) hl]
  · simp
  · rw [big_swizzle, reversed_apply]
    simp

/-- The words of an inode in the order in which they are swizzled. -/
def inodeWords (i : Nat) : List Nat :=
  ([0, 1, 3, 2] ++ (List.range 10).map (4 + ·) ++ [14, 15]).map (16 * i + ·)

theorem nodup_inodeWords (i : Nat) : (inodeWords i).Nodup := by
  unfold inodeWords
  exact List.Nodup.map (fun a b h => Nat.add_left_cancel h) (by decide)

theorem mem_inodeWords : w ∈ inodeWords i ↔ w / 16 = i := by
  have hlt : ∀ k ∈ [0, 1, 3, 2] ++ (List.range 10).map (4 + ·) ++ [14, 15], k < 16 := by decide
  have hmem : ∀ k < 16, k ∈ [0, 1, 3, 2] ++ (List.range 10).map (4 + ·) ++ [14, 15] := by decide
  unfold inodeWords
  rw [List.mem_map]
  constructor
  · rintro ⟨k, hk, rfl⟩
    have := hlt k hk
    omega
  · rintro rfl
    exact ⟨w % 16, hmem _ (by omega), by omega⟩

theorem big_swizzleinode : ByteOrder.big.swizzleinode u (64 * i) x =
    if x / 4 / 16 = i ∧ u.get32 (64 * i + 8) ≠ 0 then u (opposite x) else u x := by
  unfold ByteOrder.swizzleinode
  by_cases h0 : u.get32 (64 * i + 8) = 0
  · rw [if_pos (big_load_eq_zero.2 h0), if_neg fun h => h.2 h0]
  · rw [if_neg fun h => h0 (big_load_eq_zero.1 h)]
    refine Eq.trans ?_ (if_congr (and_iff_left h0).symm rfl rfl)
    have hfold := foldl_swizzle (u := u) (x := x) (nodup_inodeWords i)
    simp only [mem_inodeWords] at hfold
    rw [← hfold]
    have hwords : (inodeWords i).map (4 * ·) = [64 * i, 64 * i + 4, 64 * i + 12, 64 * i + 8] ++
        ((List.range 10).map fun k => 64 * i + 16 + 4 * k) ++ [64 * i + 56, 64 * i + 60] := by
      unfold inodeWords
      simp only [List.map_append, List.map_map, List.map_cons, List.map_nil]
      congr 1
      · congr 1
        · simp only [List.cons.injEq, and_true]
          omega
        · refine List.map_congr_left fun k _ => ?_
          simp only [Function.comp_apply]
          omega
      · simp only [List.cons.injEq, and_true]
        omega
    rw [hwords, List.foldl_append, List.foldl_append]
    rfl

/-- **`swizzleblock`** of a big-endian host. -/
theorem big_swizzleblock : ByteOrder.big.swizzleblock type u x =
    if turned type u (x / 4) then u (opposite x) else u x := by
  cases type with
  | super =>
    refine (foldl_swizzle (l := [0, 1, 2, 3]) (by decide)).trans (if_congr ?_ rfl rfl)
    rw [turned, decide_eq_true_iff]
    simp only [List.mem_cons, List.not_mem_nil, or_false]
    omega
  | file => rfl
  | bits =>
    refine (foldl_swizzle List.nodup_range).trans (if_congr ?_ rfl rfl)
    rw [turned, decide_eq_true_iff, List.mem_range]
  | dir =>
    have hf (u : Mem) (i x : Nat) : ByteOrder.big.swizzledirentry u (128 * i) x =
        if x / 4 = 32 * i ∧ u (128 * i + 4) ≠ 0 then u (opposite x) else u x := by
      unfold ByteOrder.swizzledirentry
      by_cases h0 : u (128 * i + 4) = 0
      · rw [if_pos h0, if_neg fun h => h.2 h0]
      · rw [if_neg h0, big_swizzle, show 128 * i = 4 * (32 * i) by omega, reversed_apply]
        exact if_congr (and_iff_left (by rwa [show 4 * (32 * i) = 128 * i by omega])).symm rfl rfl
    refine (congrFun List.foldl_map x).trans ?_
    refine (foldl_turns (A := fun i w => w = 32 * i) (c := fun u i => u (128 * i + 4) ≠ 0) hf
      (fun i j w hi hj => by omega) (fun u i j hij => ?_) List.nodup_range u x).trans
      (if_congr ?_ rfl rfl)
    · rw [hf, if_neg fun h => by omega]
    · rw [turned, decide_eq_true_iff]
      constructor
      · rintro ⟨i, hi, hw, h0⟩
        have hi := List.mem_range.1 hi
        rw [show 128 * i = 4 * (x / 4) by omega] at h0
        exact ⟨by omega, by omega, h0⟩
      · rintro ⟨hw, hmod, h0⟩
        refine ⟨x / 4 / 32, List.mem_range.2 (by omega), by omega, ?_⟩
        rwa [show 128 * (x / 4 / 32) = 4 * (x / 4) by omega]
  | inodes =>
    refine (congrFun List.foldl_map x).trans ?_
    refine (foldl_turns (A := fun i w => w / 16 = i) (c := fun u i => u.get32 (64 * i + 8) ≠ 0)
      (fun u i x => big_swizzleinode) (fun i j w hi hj => hi.symm.trans hj) (fun u i j hij => ?_)
      List.nodup_range u x).trans (if_congr ?_ rfl rfl)
    · rw [Mem.get32_congr fun x hx hx' => ?_]
      rw [big_swizzleinode, if_neg fun h => by omega]
    · rw [turned, decide_eq_true_iff]
      constructor
      · rintro ⟨i, hi, rfl, h0⟩
        have hi := List.mem_range.1 hi
        exact ⟨by omega, h0⟩
      · rintro ⟨hw, h0⟩
        exact ⟨x / 4 / 16, List.mem_range.2 (by omega), rfl, h0⟩

/-! ## Blocks on the two hosts -/

/-- The word reads the same from both ends. -/
def palindrome (u : Mem) (w : Nat) : Bool :=
  decide (u (4 * w) = u (4 * w + 3) ∧ u (4 * w + 1) = u (4 * w + 2))

/-- `swizzleblock` turns round the words that hold no text, apart from palindromes. -/
def suits (text : Nat → Bool) (type : BlockType) (u : Mem) : Bool :=
  (List.range 256).all fun w => (turned type u w != text w) || palindrome u w

/-- `u` is the block on a little-endian host, `v` on a big-endian one. -/
def Mirrors (text : Nat → Bool) (u v : Mem) : Prop :=
  ∀ x < 1024, v x = if text (x / 4) then u x else u (opposite x)

/-- Whole words of one byte, as `memset` leaves them. -/
def uniform (a : Nat) (bytes : Bytes) : Bool :=
  decide (a % 4 = 0 ∧ bytes.length % 4 = 0) && bytes.all fun c => c == bytes.headD 0

variable {text text' : Nat → Bool}

theorem palindrome_opposite (h : palindrome u (x / 4) = true) : u (opposite x) = u x := by
  obtain ⟨h0, h1⟩ := of_decide_eq_true h
  have hx : x = 4 * (x / 4) + x % 4 := by omega
  have hlt : x % 4 < 4 := by omega
  unfold opposite
  obtain hk | hk | hk | hk : x % 4 = 0 ∨ x % 4 = 1 ∨ x % 4 = 2 ∨ x % 4 = 3 := by omega
  · rw [hk, show x = 4 * (x / 4) by omega, Nat.mul_div_cancel_left _ (by decide), ← h0]
  · rw [hk, show 4 * (x / 4) + (3 - 1) = 4 * (x / 4) + 2 by omega, ← h1]
    congr 1
    omega
  · rw [hk, show 4 * (x / 4) + (3 - 2) = 4 * (x / 4) + 1 by omega, h1]
    congr 1
    omega
  · rw [hk, show 4 * (x / 4) + (3 - 3) = 4 * (x / 4) by omega, h0]
    congr 1
    omega

theorem palindrome_of_opposite (h : ∀ x, x / 4 = w → u (opposite x) = u x) :
    palindrome u w = true := by
  have h0 := h (4 * w) (by omega)
  have h1 := h (4 * w + 1) (by omega)
  rw [show opposite (4 * w) = 4 * w + 3 by unfold opposite; omega] at h0
  rw [show opposite (4 * w + 1) = 4 * w + 2 by unfold opposite; omega] at h1
  exact decide_eq_true ⟨h0.symm, h1.symm⟩

theorem suits_of_cases (h : ∀ w < 256, turned type u w = !text w ∨ palindrome u w = true) :
    suits text type u = true := by
  refine List.all_eq_true.2 fun w hw => Bool.or_eq_true_iff.2 ?_
  refine (h w (List.mem_range.1 hw)).imp_left fun ht => ?_
  rw [ht]
  cases text w <;> rfl

theorem suits_cases (h : suits text type u = true) (hw : w < 256) :
    turned type u w = !text w ∨ palindrome u w = true := by
  have hall := List.all_eq_true.1 h w (List.mem_range.2 hw)
  refine (Bool.or_eq_true_iff.1 hall).imp_left fun hne => ?_
  revert hne
  cases turned type u w <;> cases text w <;> decide

theorem turned_congr (h : ∀ x < 1024, v x = u x) (hw : w < 256) :
    turned type v w = turned type u w := by
  cases type with
  | super => rfl
  | file => rfl
  | bits => rfl
  | dir =>
    unfold turned
    by_cases hmod : w % 32 = 0
    · rw [h _ (by omega)]
    · rw [decide_eq_decide]
      exact iff_of_false (fun h => hmod h.2.1) fun h => hmod h.2.1
  | inodes =>
    unfold turned
    rw [Mem.get32_congr fun x _ hx => h x (by omega)]

/-- The word where a name starts is never turned round. -/
theorem named_of_turned (h : turned .dir u w = !text w) (hw : w % 32 = 1) : text w = true := by
  rw [turned, decide_eq_false (by omega)] at h
  rw [← Bool.not_not (text w), ← h]
  rfl

namespace Mirrors

/-- A word of text, or a palindrome, has its bytes in the same order. -/
theorem same (h : Mirrors text u v) (hx : x < 1024)
    (ht : text (x / 4) = true ∨ palindrome u (x / 4) = true) : v x = u x := by
  rw [h x hx]
  split
  · rfl
  · exact palindrome_opposite (ht.resolve_left ‹_›)

/-- A number, or a palindrome, has its bytes in the other order. -/
theorem other (h : Mirrors text u v) (hx : x < 1024)
    (ht : text (x / 4) = false ∨ palindrome u (x / 4) = true) : v x = u (opposite x) := by
  rw [h x hx]
  split
  · next htext => exact (palindrome_opposite (ht.resolve_left (by rw [htext]; decide))).symm
  · rfl

theorem turned_eq (h : Mirrors text u v) (hw : w < 256)
    (hname : type = .dir → ∀ k < 256, k % 32 = 1 → text k = true ∨ palindrome u k = true) :
    turned type v w = turned type u w := by
  cases type with
  | super => rfl
  | file => rfl
  | bits => rfl
  | dir =>
    unfold turned
    by_cases hmod : w % 32 = 0
    · rw [h.same (by omega) (hname rfl ((4 * w + 4) / 4) (by omega) (by omega))]
    · rw [decide_eq_decide]
      exact iff_of_false (fun h => hmod h.2.1) fun h => hmod h.2.1
  | inodes =>
    have hword (i : Nat) (hi : i < 4) :
        (64 * (w / 16) + 8 + i) / 4 = 16 * (w / 16) + 2 := by omega
    have hzero : v.get32 (64 * (w / 16) + 8) = 0 ↔ u.get32 (64 * (w / 16) + 8) = 0 := by
      cases ht : text (16 * (w / 16) + 2) with
      | true =>
        rw [get32_eq_zero, get32_eq_zero]
        refine forall₂_congr fun i hi => ?_
        rw [h.same (by omega) (.inl (by rwa [hword i hi]))]
      | false =>
        refine get32_eq_zero_of_turned fun i hi => ?_
        rw [h.other (by omega) (.inl (by rwa [hword i hi]))]
        congr 1
        unfold opposite
        omega
    unfold turned
    rw [decide_eq_decide, ne_eq, ne_eq, hzero]

/-- A block goes to the disk as on a little-endian host. -/
theorem written (h : Mirrors text u v) (hs : suits text type u = true) (hx : x < 1024) :
    ByteOrder.big.swizzleblock type v x = u x := by
  have hw : x / 4 < 256 := by omega
  have hname : type = .dir → ∀ k < 256, k % 32 = 1 → text k = true ∨ palindrome u k = true := by
    rintro rfl k hk hk1
    exact (suits_cases hs hk).imp_left fun ht => named_of_turned ht hk1
  rw [big_swizzleblock, h.turned_eq hw hname]
  rcases suits_cases hs hw with ht | hp
  · cases htext : text (x / 4) with
    | true =>
      rw [htext] at ht
      rw [ht]
      exact h.same hx (.inl htext)
    | false =>
      rw [htext] at ht
      rw [ht]
      refine (h.other (by unfold opposite; omega) (.inl (by rwa [opposite_div]))).trans ?_
      rw [opposite_opposite]
  · split
    · rw [h.same (by unfold opposite; omega) (.inr (by rwa [opposite_div]))]
      exact palindrome_opposite hp
    · exact h.same hx (.inr hp)

/-- Nothing else goes to the disk as on a little-endian host. -/
theorem suits_of_written (h : Mirrors text u v)
    (hout : ∀ x < 1024, ByteOrder.big.swizzleblock type v x = u x) :
    suits text type u = true := by
  have hcase (w : Nat) (hw : w < 256) :
      turned type v w = !text w ∨ palindrome u w = true := by
    by_cases ht : turned type v w = !text w
    · exact .inl ht
    · refine .inr (palindrome_of_opposite fun x hx => ?_)
      have hword := hout x (by omega)
      rw [big_swizzleblock, hx] at hword
      cases htext : text w with
      | true =>
        have hturn : turned type v w = true := by
          rw [htext] at ht
          simpa using ht
        rw [hturn, if_pos rfl,
          h.same (by unfold opposite; omega) (.inl (by rwa [opposite_div, hx]))] at hword
        exact hword
      | false =>
        have hturn : turned type v w = false := by
          rw [htext] at ht
          simpa using ht
        rw [hturn, if_neg Bool.false_ne_true, h.other (by omega) (.inl (by rwa [hx]))] at hword
        exact hword
  refine suits_of_cases fun w hw => ?_
  rw [← h.turned_eq hw]
  · exact hcase w hw
  · rintro rfl k hk hk1
    exact (hcase k hk).imp_left fun ht => named_of_turned ht hk1

theorem load (h : Mirrors text u v) (hw : w < 256)
    (ht : text w = false ∨ palindrome u w = true) :
    ByteOrder.big.load v (4 * w) = ByteOrder.little.load u (4 * w) := by
  refine Mem.get32_congr fun x hx hx' => ?_
  have hword : x / 4 = w := by omega
  rw [reversed_apply, if_pos hword]
  refine (h.other (by unfold opposite; omega) ?_).trans (congrArg u (opposite_opposite x))
  rwa [opposite_div, hword]

theorem store32 {n : Nat} (h : Mirrors text u v) (hnum : text' w = false)
    (hrest : ∀ k < 256, k ≠ w → text' k = text k) :
    Mirrors text' (ByteOrder.little.store u (4 * w) n) (ByteOrder.big.store v (4 * w) n) := by
  intro x hx
  show reversed (v.set32 (4 * w) n) (4 * w) x =
    if text' (x / 4) then u.set32 (4 * w) n x else u.set32 (4 * w) n (opposite x)
  rw [reversed_apply]
  by_cases hword : x / 4 = w
  · rw [if_pos hword, hword, hnum, if_neg Bool.false_ne_true]
    unfold Mem.set32
    rw [if_pos (by unfold opposite; omega), if_pos (by unfold opposite; omega)]
  · rw [if_neg hword, hrest _ (by omega) hword, Mem.set32_of_ne (by omega),
      Mem.set32_of_ne (by omega), Mem.set32_of_ne (by unfold opposite; omega)]
    exact h x hx

theorem store_uniform {off : Nat} {bytes : Bytes} (h : Mirrors text u v)
    (hu : uniform off bytes = true) : Mirrors text (u.store off bytes) (v.store off bytes) := by
  obtain ⟨hwords, hsame⟩ := Bool.and_eq_true_iff.1 hu
  obtain ⟨hoff, hlen⟩ := of_decide_eq_true hwords
  have hin (m : Mem) (y : Nat) (hy : off ≤ y) (hy' : y < off + bytes.length) :
      m.store off bytes y = bytes.headD 0 := by
    unfold Mem.store
    rw [if_pos ⟨hy, hy'⟩, List.getD_eq_getElem _ _ (by omega)]
    exact eq_of_beq (List.all_eq_true.1 hsame _ (List.getElem_mem _))
  intro x hx
  by_cases hx' : off ≤ x ∧ x < off + bytes.length
  · rw [hin v x hx'.1 hx'.2, hin u x hx'.1 hx'.2,
      hin u (opposite x) (by unfold opposite; omega) (by unfold opposite; omega), ite_self]
  · rw [Mem.store_of_ne (by omega), Mem.store_of_ne (by omega),
      Mem.store_of_ne (by unfold opposite; omega)]
    exact h x hx

theorem store {off : Nat} {bytes : Bytes} (h : Mirrors text u v)
    (hover : ∀ j < bytes.length,
      text ((off + j) / 4) = true ∨ palindrome u ((off + j) / 4) = true)
    (ht : ∀ k < 256, text' k =
      (text k || decide (0 < bytes.length ∧ off < 4 * k + 4 ∧ 4 * k < off + bytes.length))) :
    Mirrors text' (u.store off bytes) (v.store off bytes) := by
  intro x hx
  rw [ht _ (by omega)]
  by_cases hin : 0 < bytes.length ∧ off < 4 * (x / 4) + 4 ∧ 4 * (x / 4) < off + bytes.length
  · rw [decide_eq_true hin, Bool.or_true, if_pos rfl]
    unfold Mem.store
    split
    · rfl
    · refine h.same hx ?_
      have := hover (max off (4 * (x / 4)) - off) (by omega)
      rwa [show (off + (max off (4 * (x / 4)) - off)) / 4 = x / 4 by omega] at this
  · rw [decide_eq_false hin, Bool.or_false, Mem.store_of_ne (by omega),
      Mem.store_of_ne (by omega), Mem.store_of_ne (by unfold opposite; omega)]
    exact h x hx

end Mirrors

/-- A block comes back from the disk. -/
theorem mirrors_of_read (hs : suits text type u = true) (hv : ∀ x < 1024, v x = u x) :
    Mirrors text u (ByteOrder.big.swizzleblock type v) := by
  intro x hx
  have hw : x / 4 < 256 := by omega
  rw [big_swizzleblock, turned_congr hv hw, hv x hx, hv _ (by unfold opposite; omega)]
  rcases suits_cases hs hw with ht | hp
  · rw [ht]
    cases text (x / 4) <;> rfl
  · rw [palindrome_opposite hp, ite_self, ite_self]

end OsLabs.Ospfs
