import OsLabs.Osp2p.Messages

/-!
# Peer messages: the buffer of `osp2p_writef`

The first loop of `osp2p_writef` with its buffer: every byte stored is recorded with
its index and the size of the buffer it goes to. What `ensure_buf` is asked for is
enough for every directive but `%d`: ten characters and the NUL fit, a number of
eleven characters needs one byte more, which is missing where the buffer has exactly
eleven bytes left (`staysInside_iff`).
-/

namespace OsLabs.Osp2p

open Scan

/-- The capacity that `ensure_buf` leaves. -/
def ensureBuf (capacity len : Nat) : Nat := if len ≥ capacity then len + 2048 else capacity

/-- A byte stored in a buffer. -/
structure Store where
  index : Nat
  capacity : Nat
  deriving DecidableEq, Repr

/-- The stores of `n` bytes from index `pos` on. -/
def storesAt (capacity pos n : Nat) : List Store := (List.range n).map fun i => ⟨pos + i, capacity⟩

/-- `buf`, the bytes below `len`, and all stores so far. -/
structure Buf where
  capacity : Nat
  text : Bytes
  stores : List Store

namespace Buf

/-- `ensure_buf` for `reserve` bytes behind the text, then the bytes `w` and `nul` NULs; the
NULs are no part of the text. -/
def put (b : Buf) (reserve : Nat) (w : Bytes) (nul : Nat) : Buf :=
  let capacity := ensureBuf b.capacity (b.text.length + reserve)
  ⟨capacity, b.text ++ w, b.stores ++ storesAt capacity b.text.length (w.length + nul)⟩

/-- The stores of `http_quote`, in a buffer of its own. -/
def quote (b : Buf) (str : Bytes) : Buf :=
  { b with stores := b.stores ++ storesAt (3 * str.length + 1) 0 ((httpQuote str).length + 1) }

def putString (b : Buf) (str : Bytes) : Buf :=
  (b.quote str).put (httpQuote str).length (httpQuote str) 1

def putInt (b : Buf) (i : Int) : Buf := b.put 10 (sprintfInt i) 1

def putAddr (b : Buf) (a : InAddr) : Buf := b.put 16 (inetNtoa a) 1

def putChar (b : Buf) (c : UInt8) : Buf := b.put 1 [c] 0

end Buf

/-- The first loop of `osp2p_writef`. -/
def buildMessage : List Char → List Arg → Buf → Option Buf
  | [], _, b => some b
  | '%' :: 's' :: format, args, b =>
    match args with
    | .str s :: args => buildMessage format args (b.putString s)
    | _ => none
  | '%' :: 'd' :: format, args, b =>
    match args with
    | .int i :: args => buildMessage format args (b.putInt i)
    | _ => none
  | '%' :: 'I' :: format, args, b =>
    match args with
    | .addr a :: args => buildMessage format args (b.putAddr a)
    | _ => none
  | '%' :: '%' :: format, args, b => buildMessage format args (b.putChar (byte '%'))
  | c :: format, args, b => buildMessage format args (b.putChar (byte c))

/-- The buffer in front of the first loop. -/
def newBuf : Buf := ⟨ensureBuf 0 1024, [], []⟩

/-- Every byte is stored inside its buffer; and a call that returns 0 has sent the bytes of
the message once each and in order, however the calls of `write` went. -/
structure StaysInside (format : List Char) (args : List Arg) : Prop where
  inside : ∀ b, buildMessage format args newBuf = some b →
    ∀ st ∈ b.stores, st.index < st.capacity
  sent : ∀ calls sent, osp2pWritef format args calls = some (0, sent) →
    ∃ b, buildMessage format args newBuf = some b ∧ sent = b.text

/-- A number to be written, the length of the text in front of it and the capacity there. -/
structure NumberAt where
  value : Int
  len : Nat
  capacity : Nat
  deriving DecidableEq, Repr

/-- The numbers of a message. -/
def numbersAt : List Char → List Arg → (len capacity : Nat) → List NumberAt
  | [], _, _, _ => []
  | '%' :: 's' :: format, args, len, capacity =>
    match args with
    | .str s :: args =>
      let n := (httpQuote s).length
      numbersAt format args (len + n) (ensureBuf capacity (len + n))
    | _ => []
  | '%' :: 'd' :: format, args, len, capacity =>
    match args with
    | .int i :: args =>
      ⟨i, len, capacity⟩ ::
        numbersAt format args (len + (sprintfInt i).length) (ensureBuf capacity (len + 10))
    | _ => []
  | '%' :: 'I' :: format, args, len, capacity =>
    match args with
    | .addr a :: args =>
      numbersAt format args (len + (inetNtoa a).length) (ensureBuf capacity (len + 16))
    | _ => []
  | '%' :: '%' :: format, args, len, capacity =>
    numbersAt format args (len + 1) (ensureBuf capacity (len + 1))
  | _ :: format, args, len, capacity =>
    numbersAt format args (len + 1) (ensureBuf capacity (len + 1))

/-- The number has less than eleven characters, or the buffer has not just eleven bytes left. -/
def NumberAt.Fits (n : NumberAt) : Prop := -1000000000 < n.value ∨ n.capacity ≠ n.len + 11

instance (n : NumberAt) : Decidable n.Fits := inferInstanceAs (Decidable (_ ∨ _))

/-! ## One directive -/

variable {format : List Char} {args : List Arg} {buf : Bytes} {b b' : Buf} {s w : Bytes} {i : Int}
  {a : InAddr} {n k : Nat}

theorem lt_ensureBuf (capacity len : Nat) : len < ensureBuf capacity len := by
  unfold ensureBuf
  split <;> omega

def Buf.Inside (b : Buf) : Prop := ∀ st ∈ b.stores, st.index < st.capacity

theorem forall_storesAt {capacity pos : Nat} :
    (∀ st ∈ storesAt capacity pos n, st.index < st.capacity) ↔ n = 0 ∨ pos + n ≤ capacity := by
  simp only [storesAt, List.forall_mem_map, List.mem_range]
  constructor
  · intro h
    rcases n with _ | n
    · exact .inl rfl
    · exact .inr (h n (Nat.lt_succ_self n))
  · rintro (rfl | h) i hi <;> omega

theorem Buf.inside_put {reserve nul : Nat} (h : 0 < w.length + nul) :
    (b.put reserve w nul).Inside ↔ b.Inside ∧
      b.text.length + w.length + nul ≤ ensureBuf b.capacity (b.text.length + reserve) := by
  unfold Inside put
  rw [List.forall_mem_append, forall_storesAt]
  exact and_congr_right fun _ => by omega

theorem Buf.inside_put_of_le {reserve nul : Nat} (h : 0 < w.length + nul)
    (hle : w.length + nul ≤ reserve + 1) : (b.put reserve w nul).Inside ↔ b.Inside := by
  have := lt_ensureBuf b.capacity (b.text.length + reserve)
  rw [inside_put h]
  exact and_iff_left (by omega)

/-! ## The length of the texts -/

theorem length_decimal (n : Nat) (h : 0 < k) : (decimal n).length ≤ k ↔ n < 10 ^ k := by
  rw [decimal, List.length_map]
  exact Nat.length_toDigits_le_iff (by decide) h

theorem length_sprintfInt (h : -2147483648 ≤ i) (h' : i < 2147483648) :
    (sprintfInt i).length ≤ 11 ∧ (10 < (sprintfInt i).length ↔ i ≤ -1000000000) := by
  have h9 := length_decimal (k := 9) i.natAbs (by decide)
  have h10 := length_decimal (k := 10) i.natAbs (by decide)
  unfold sprintfInt
  split
  · rw [List.length_cons]
    omega
  · omega

theorem sprintfInt_pos (i : Int) : 0 < (sprintfInt i).length := by
  obtain ⟨d, l, -, hl⟩ := decimal_head i.natAbs
  unfold sprintfInt
  split <;> simp [hl]

theorem length_inetNtoa (a : InAddr) : (inetNtoa a).length ≤ 15 := by
  have h (b : UInt8) : (decimal b.toNat).length ≤ 3 := by
    have := b.toNat_lt
    rw [length_decimal _ (by decide)]
    omega
  have h0 := h a.b0
  have h1 := h a.b1
  have h2 := h a.b2
  have h3 := h a.b3
  simp only [inetNtoa, List.length_append, List.length_cons]
  omega

theorem length_httpQuote : ∀ s : Bytes, (httpQuote s).length ≤ 3 * s.length
  | [] => Nat.le_refl _
  | c :: s => by
    have := length_httpQuote s
    rw [httpQuote, List.length_cons]
    split <;> simp only [List.length_cons] <;> omega

/-! ## The directives -/

theorem Buf.inside_quote : (b.quote s).Inside ↔ b.Inside := by
  have := length_httpQuote s
  unfold Inside quote
  rw [List.forall_mem_append, forall_storesAt]
  exact and_iff_left (by omega)

theorem Buf.inside_putString : (b.putString s).Inside ↔ b.Inside := by
  rw [putString, inside_put_of_le (by omega) (by omega), inside_quote]

theorem Buf.inside_putAddr : (b.putAddr a).Inside ↔ b.Inside := by
  have := length_inetNtoa a
  rw [putAddr, inside_put_of_le (by omega) (by omega)]

theorem Buf.inside_putChar {c : UInt8} : (b.putChar c).Inside ↔ b.Inside := by
  rw [putChar, inside_put_of_le (by simp) (by simp)]

theorem Buf.inside_putInt (h : -2147483648 ≤ i) (h' : i < 2147483648) :
    (b.putInt i).Inside ↔ b.Inside ∧ NumberAt.Fits ⟨i, b.text.length, b.capacity⟩ := by
  obtain ⟨hle, hlt⟩ := length_sprintfInt h h'
  have hpos := sprintfInt_pos i
  rw [putInt, inside_put (by omega)]
  refine and_congr_right fun _ => ?_
  unfold NumberAt.Fits ensureBuf
  dsimp only
  split <;> omega

/-! ## The message -/

theorem map_append (o : Option Bytes) (u v : Bytes) :
    (o.map (v ++ ·)).map (u ++ ·) = o.map ((u ++ v) ++ ·) := by
  cases o with
  | none => rfl
  | some w => exact congrArg some (List.append_assoc u v w).symm

theorem buildMessage_text (format : List Char) (args : List Arg) (b : Buf) :
    (buildMessage format args b).map Buf.text = (develop format args).map (b.text ++ ·) := by
  fun_induction buildMessage format args b with
  | case1 args b => simp [develop]
  | case2 format b s args ih =>
    rw [ih, develop, map_append]
    rfl
  | case3 format args b hargs =>
    rw [develop]
    · rfl
    · exact hargs
  | case4 format b i args ih =>
    rw [ih, develop, map_append]
    rfl
  | case5 format args b hargs =>
    rw [develop]
    · rfl
    · exact hargs
  | case6 format b a args ih =>
    rw [ih, develop, map_append]
    rfl
  | case7 format args b hargs =>
    rw [develop]
    · rfl
    · exact hargs
  | case8 format args b ih =>
    rw [ih, develop]
    exact (map_append (develop format args) b.text [byte '%']).symm
  | case9 c format args b h1 h2 h3 h4 ih =>
    rw [ih, develop]
    · exact (map_append (develop format args) b.text [byte c]).symm
    all_goals assumption

/-- The ints that a caller can pass. -/
def IntArgs (args : List Arg) : Prop :=
  ∀ i, .int i ∈ args → -2147483648 ≤ i ∧ i < 2147483648

theorem IntArgs.tail {x : Arg} (h : IntArgs (x :: args)) : IntArgs args :=
  fun i hi => h i (List.mem_cons_of_mem _ hi)

theorem length_put (b : Buf) (reserve : Nat) (w : Bytes) (nul : Nat) :
    (b.put reserve w nul).text.length = b.text.length + w.length := List.length_append

theorem buildMessage_inside (format : List Char) (args : List Arg) (b : Buf) (hi : IntArgs args)
    (h : buildMessage format args b = some b') :
    b'.Inside ↔ b.Inside ∧ ∀ n ∈ numbersAt format args b.text.length b.capacity, n.Fits := by
  fun_induction buildMessage format args b with
  | case1 args b =>
    cases h
    simp [numbersAt]
  | case2 format b s args ih =>
    rw [ih hi.tail h, Buf.inside_putString, numbersAt, Buf.putString, length_put]
    rfl
  | case4 format b i args ih =>
    obtain ⟨h1, h2⟩ := hi i List.mem_cons_self
    rw [ih hi.tail h, Buf.inside_putInt h1 h2, numbersAt, List.forall_mem_cons, and_assoc,
      Buf.putInt, length_put]
    rfl
  | case6 format b a args ih =>
    rw [ih hi.tail h, Buf.inside_putAddr, numbersAt, Buf.putAddr, length_put]
    rfl
  | case8 format args b ih =>
    rw [ih hi h, Buf.inside_putChar, numbersAt, Buf.putChar, length_put]
    rfl
  | case9 c format args b h1 h2 h3 h4 ih =>
    rw [ih hi h, Buf.inside_putChar, numbersAt, Buf.putChar, length_put]
    · rfl
    all_goals assumption
  | case3 | case5 | case7 => cases h

/-- **Message building stays inside its buffers** iff at no number of eleven characters the
buffer has exactly eleven bytes left. -/
theorem staysInside_iff (hi : IntArgs args) (h : develop format args = some buf) :
    StaysInside format args ↔ ∀ n ∈ numbersAt format args 0 3072, n.Fits := by
  have htext := buildMessage_text format args newBuf
  rw [h] at htext
  obtain ⟨b, hb, hbuf⟩ := Option.map_eq_some_iff.mp htext
  have hin := buildMessage_inside format args newBuf hi hb
  rw [and_iff_right (show newBuf.Inside from nofun)] at hin
  rw [← show b.Inside ↔ ∀ n ∈ numbersAt format args 0 3072, n.Fits from hin]
  constructor
  · exact fun hs => hs.inside b hb
  · intro hb'
    refine ⟨fun b₁ h₁ => ?_, fun calls sent hsent => ⟨b, hb, ?_⟩⟩
    · rw [hb] at h₁
      cases h₁
      exact hb'
    · rw [osp2pWritef, h] at hsent
      rw [hbuf]
      exact send_all hsent

/-- The arguments of a peer's entry in the list of the tracker. -/
def peerArgs : List Arg := [.str [byte 'a'], .addr ⟨10, 2, 3, 4⟩, .int 80]

theorem staysInside_peer : IntArgs peerArgs ∧ (develop peerFormat peerArgs).isSome ∧
    StaysInside peerFormat peerArgs := by
  have hi : IntArgs peerArgs := by
    intro i h
    simp only [peerArgs, List.mem_cons, reduceCtorEq, Arg.int.injEq, List.not_mem_nil, or_false,
      false_or] at h
    omega
  have hd : (develop peerFormat peerArgs).isSome := by decide
  obtain ⟨buf, hbuf⟩ := Option.isSome_iff_exists.mp hd
  exact ⟨hi, hd, (staysInside_iff hi hbuf).mpr (by decide)⟩

theorem httpQuote_plain {c : UInt8} (hc : isPlain c = true) :
    ∀ n, httpQuote (List.replicate n c) = List.replicate n c
  | 0 => rfl
  | n + 1 => by
    rw [List.replicate_succ, httpQuote, if_pos hc, httpQuote_plain hc n]

/-- A string of 3061 bytes that need no quoting, and the smallest number. -/
def longMessage : List Arg := [.str (List.replicate 3061 (byte 'a')), .int (-2147483648)]

/-- The NUL behind the number is stored behind the buffer of 3072 bytes. -/
theorem longMessage_not_inside :
    IntArgs longMessage ∧ ¬ StaysInside ['%', 's', '%', 'd'] longMessage := by
  have hi : IntArgs longMessage := by
    intro i h
    simp only [longMessage, List.mem_cons, reduceCtorEq, Arg.int.injEq, List.not_mem_nil, or_false,
      false_or] at h
    omega
  have hat : numbersAt ['%', 's', '%', 'd'] longMessage 0 3072 = [⟨-2147483648, 3061, 3072⟩] := by
    rw [longMessage, numbersAt, httpQuote_plain (by decide), List.length_replicate]
    rfl
  obtain ⟨b, hb⟩ : ∃ b, buildMessage ['%', 's', '%', 'd'] longMessage newBuf = some b := ⟨_, rfl⟩
  refine ⟨hi, fun hs => ?_⟩
  have hin := (buildMessage_inside ['%', 's', '%', 'd'] longMessage newBuf hi hb).mp
    (hs.inside b hb)
  have hfit := hin.2 ⟨-2147483648, 3061, 3072⟩ (by
    rw [show numbersAt ['%', 's', '%', 'd'] longMessage newBuf.text.length newBuf.capacity = _
      from hat]
    exact List.mem_cons_self)
  revert hfit
  decide

end OsLabs.Osp2p
