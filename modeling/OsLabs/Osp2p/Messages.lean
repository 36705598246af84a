import OsLabs.Osp2p.Writescan

/-!
# Peer messages: what is written is read back

`Separated format` says that every conversion of a format ends where the text of
the next item begins. For such a format `osp2pSnscanf` gives back the arguments
of `osp2pWritef` (`scan_develop`); the messages of the peers are of this kind.
-/

namespace OsLabs.Osp2p

open Scan

/-! ## Quoted strings -/

theorem xdigit_spec : ∀ {n : Nat}, n < 16 →
    isxdigit (xdigit n) = true ∧ (xvalue (xdigit n)).toNat = n := by
  decide

theorem isPlain_spec : ∀ n : Nat, n < 256 → isPlain (.ofNat n) = true →
    isspace (.ofNat n) = false ∧ UInt8.ofNat n ≠ byte '%' := by
  decide +kernel

theorem isPlain_no_space {c : UInt8} (h : isPlain c = true) : isspace c = false ∧ c ≠ byte '%' := by
  have := isPlain_spec c.toNat c.toNat_lt
  rw [UInt8.ofNat_toNat] at this
  exact this h

theorem xvalue_xdigits (c : UInt8) :
    xvalue (xdigit (c.toNat / 16)) * 16 + xvalue (xdigit (c.toNat % 16)) = c := by
  have hc := c.toNat_lt
  have h1 := (xdigit_spec (n := c.toNat / 16) (by omega)).2
  have h2 := (xdigit_spec (n := c.toNat % 16) (by omega)).2
  apply UInt8.toNat.inj
  rw [UInt8.toNat_add, UInt8.toNat_mul, h1, h2]
  show (c.toNat / 16 * 16 % 256 + c.toNat % 16) % 256 = c.toNat
  omega

theorem isQuoted_of_ne {c : UInt8} (h : c ≠ byte '%') (s : Bytes) : isQuoted c s = some false := by
  unfold isQuoted
  split <;> simp [h]

/-- The field ends at a white-space byte, or at the end. -/
def Ends (rest : Bytes) : Prop := ∀ c ∈ rest.head?, isspace c = true

theorem scanString_cons (after : Bytes) (c : UInt8) (s : Bytes) :
    scanString after (c :: s) =
      if isspace c then some ([], c :: s)
      else
        match isQuoted c (s ++ after) with
        | none => none
        | some false => (scanString after s).map fun r => (c :: r.1, r.2)
        | some true =>
          match s with
          | c1 :: c2 :: s =>
            (scanString after s).map fun r => ((xvalue c1 * 16 + xvalue c2) :: r.1, r.2)
          | _ => none := by
  rw [scanString.eq_def]
  rfl

theorem scanString_ends {rest : Bytes} (h : Ends rest) (after : Bytes) :
    scanString after rest = some ([], rest) := by
  rcases rest with _ | ⟨c, rest⟩
  · rfl
  · rw [scanString_cons, if_pos (h c rfl)]

/-- Unquoting is the inverse of quoting, one byte of the string at a time. -/
theorem scanString_httpQuote (s : Bytes) {rest : Bytes} (h : Ends rest) (after : Bytes) :
    scanString after (httpQuote s ++ rest) = some (s, rest) := by
  induction s with
  | nil => exact scanString_ends h after
  | cons c s ih =>
    rw [httpQuote]
    split
    case isTrue hp =>
      obtain ⟨hs, hne⟩ := isPlain_no_space hp
      rw [List.cons_append, scanString_cons, if_neg (by simp [hs]), isQuoted_of_ne hne]
      simp only [ih, Option.map_some]
    case isFalse hp =>
      have hc := c.toNat_lt
      have hx1 := (xdigit_spec (n := c.toNat / 16) (by omega)).1
      have hx2 := (xdigit_spec (n := c.toNat % 16) (by omega)).1
      have hq (l : Bytes) : isQuoted (byte '%')
          (xdigit (c.toNat / 16) :: xdigit (c.toNat % 16) :: l) = some true := by
        simp [isQuoted, hx1, hx2]
      simp only [List.cons_append]
      rw [scanString_cons, if_neg (by decide), List.cons_append, List.cons_append, hq]
      simp only [ih, Option.map_some, xvalue_xdigits]

theorem httpQuote_head {s : Bytes} (h : s ≠ []) :
    ∃ b l, httpQuote s = b :: l ∧ isspace b = false := by
  rcases s with _ | ⟨c, s⟩
  · exact absurd rfl h
  · rw [httpQuote]
    split
    case isTrue hp => exact ⟨_, _, rfl, (isPlain_no_space hp).1⟩
    case isFalse hp => exact ⟨_, _, rfl, by decide⟩

/-! ## Numbers and addresses -/

theorem digit_class : ∀ {d : Nat}, d < 10 →
    isdigit (digit d) = true ∧ isspace (digit d) = false := by
  decide

/-- What follows a number does not go on with a digit. -/
def NoDigit (rest : Bytes) : Prop := ∀ c ∈ rest.head?, isdigit c = false

theorem scanInt_decimal {n : Nat} (hn : n < 2147483630) {rest : Bytes} (h : NoDigit rest) :
    scanInt (decimal n ++ rest) = some (n, rest) := by
  have hread : (decimal n).foldlM intStep 0 = some n := by
    refine foldlM_decimal (f := id) n (fun d hd => ?_) fun v d hd hle => ?_
    · have := digit_toNat hd
      simp [intStep, (digit_class hd).1, this, intMax]
      omega
    · have := digit_toNat hd
      simp [intStep, (digit_class hd).1, this, intMax]
      omega
  have hstop : scanWhile intStep n rest = (n, rest) := by
    apply scanWhile_stop
    intro c hc
    simp [intStep, h c hc]
  obtain ⟨d, l, hd, hl⟩ := decimal_head n
  have hhead : (decimal n ++ rest).head?.any isdigit = true := by
    simp [hl, (digit_class hd).1]
  have hrest : rest.head?.any isdigit = false := by
    rcases rest with _ | ⟨c, rest⟩
    · rfl
    · exact h c rfl
  unfold scanInt
  simp only [hhead, if_true, scanWhile_append rest hread, hstop, hrest]
  rfl

theorem scanWhile_octet {n : Nat} (hn : n < 256) {rest : Bytes} (h : NoDigit rest) :
    scanWhile octetStep (-1) (decimal n ++ rest) = ((n : Int), rest) := by
  have hread : (decimal n).foldlM octetStep (-1) = some (n : Int) := by
    refine foldlM_decimal (f := fun n => (n : Int)) n (fun d hd => ?_) fun v d hd hle => ?_
    · have := digit_toNat hd
      unfold octetStep
      rw [if_pos ⟨(digit_class hd).1, by decide⟩, if_pos (by decide), this]
      congr 1
      omega
    · have := digit_toNat hd
      unfold octetStep
      rw [if_pos ⟨(digit_class hd).1, by omega⟩, if_neg (by omega), this]
      congr 1
      omega
  rw [scanWhile_append rest hread]
  apply scanWhile_stop
  intro c hc
  simp [octetStep, h c hc]

theorem noDigit_dot (s : Bytes) : NoDigit (byte '.' :: s) := by
  intro c hc
  obtain rfl : byte '.' = c := Option.some.inj hc
  rfl

theorem scanAddr_dot (i value : Nat) (b : UInt8) (s : Bytes) :
    scanAddr (i + 1) value (decimal b.toNat ++ byte '.' :: s) =
      scanAddr i (value * 256 + b.toNat) s := by
  have hb := b.toNat_lt
  rw [scanAddr]
  simp only [scanWhile_octet hb (noDigit_dot s)]
  rw [if_neg (by omega)]
  simp

theorem scanAddr_last (value : Nat) (b : UInt8) {rest : Bytes} (h : NoDigit rest) :
    scanAddr 0 value (decimal b.toNat ++ rest) = some (value * 256 + b.toNat, rest) := by
  have hb := b.toNat_lt
  rw [scanAddr]
  simp only [scanWhile_octet hb h]
  rw [if_neg (by omega)]
  simp

theorem htonl_bytes (a : InAddr) :
    htonl ((((0 * 256 + a.b0.toNat) * 256 + a.b1.toNat) * 256 + a.b2.toNat) * 256 + a.b3.toNat) =
      a := by
  have h0 := a.b0.toNat_lt
  have h1 := a.b1.toNat_lt
  have h2 := a.b2.toNat_lt
  have h3 := a.b3.toNat_lt
  have hbyte (x : Nat) (b : UInt8) (hx : x % 256 = b.toNat) : UInt8.ofNat x = b := by
    apply UInt8.toNat.inj
    rw [UInt8.toNat_ofNat']
    exact hx
  obtain ⟨b0, b1, b2, b3⟩ := a
  unfold htonl
  simp only [InAddr.mk.injEq] at *
  exact ⟨hbyte _ _ (by omega), hbyte _ _ (by omega), hbyte _ _ (by omega), hbyte _ _ (by omega)⟩

theorem scanAddr_inetNtoa (a : InAddr) {rest : Bytes} (h : NoDigit rest) :
    ∃ value, scanAddr 3 0 (inetNtoa a ++ rest) = some (value, rest) ∧ htonl value = a := by
  refine ⟨_, ?_, htonl_bytes a⟩
  unfold inetNtoa
  simp only [List.append_assoc, List.cons_append]
  rw [scanAddr_dot, scanAddr_dot, scanAddr_dot, scanAddr_last _ _ h]

/-! ## Messages -/

def conversions : List Char → Nat
  | [] => 0
  | '%' :: '%' :: format => conversions format
  | '%' :: _ :: format => conversions format + 1
  | _ :: format => conversions format

/-- The text of `%s` is followed by white space, that of a number by something
that is no digit, and `%` only begins conversions that both functions know. -/
def Separated : List Char → Bool
  | [] => true
  | '%' :: 's' :: format => format.head?.all (fun c => isspace (byte c)) && Separated format
  | '%' :: 'd' :: format =>
    format.head?.all (fun c => c != '%' && !isdigit (byte c)) && Separated format
  | '%' :: 'I' :: format =>
    format.head?.all (fun c => c != '%' && !isdigit (byte c)) && Separated format
  | '%' :: '%' :: format => Separated format
  | '%' :: _ => false
  | _ :: format => Separated format

/-- The arguments that can be read back: strings that are not empty and numbers
that are not negative and below what the loop of `%d` accepts. -/
def Arg.Readable : Arg → Prop
  | .str s => s ≠ []
  | .int i => 0 ≤ i ∧ i < 2147483630
  | .addr _ => True

variable {format : List Char} {args : List Arg} {buf : Bytes}

theorem develop_char {c : Char} (hc : c ≠ '%') :
    develop (c :: format) args = (develop format args).map (byte c :: ·) := by
  rw [develop] <;> simp [hc]

theorem conversions_char {c : Char} (hc : c ≠ '%') :
    conversions (c :: format) = conversions format := by
  rw [conversions.eq_def]
  split <;> simp_all

theorem scanLoop_char {c : Char} (hc : c ≠ '%') (after : Bytes) (len : Nat) (inSpace : Bool)
    (s : Bytes) :
    scanLoop after len inSpace (c :: format) s =
      if isspace (byte c) then
        if inSpace then scanLoop after len true format s
        else if s.head?.any isspace then scanLoop after len true format (s.dropWhile isspace)
        else some (-1, [])
      else
        match s with
        | b :: s => if b = byte c then scanLoop after len false format s else some (-1, [])
        | [] => some (-1, []) := by
  rw [scanLoop.eq_def]
  split
  case h_7 he =>
    cases he
    rfl
  all_goals simp_all

theorem develop_head {P : UInt8 → Bool} (hne : ∀ c ∈ format.head?, c ≠ '%' ∧ P (byte c) = true)
    (h : develop format args = some buf) : ∀ b ∈ buf.head?, P b = true := by
  rcases format with _ | ⟨c, format⟩
  · simp only [develop, Option.some.injEq] at h
    simp [← h]
  · obtain ⟨hc, hp⟩ := hne c rfl
    rw [develop_char hc] at h
    obtain ⟨buf', -, rfl⟩ := Option.map_eq_some_iff.1 h
    intro b hb
    obtain rfl : byte c = b := Option.some.inj hb
    exact hp

theorem ends_of_head (hs : format.head?.all (fun c => isspace (byte c)) = true)
    (h : develop format args = some buf) : Ends buf := by
  refine develop_head (P := isspace) (fun c hc => ?_) h
  rw [Option.mem_def.1 hc] at hs
  refine ⟨?_, hs⟩
  rintro rfl
  exact absurd hs (by decide)

theorem noDigit_of_head
    (hs : format.head?.all (fun c => c != '%' && !isdigit (byte c)) = true)
    (h : develop format args = some buf) : NoDigit buf := by
  intro b hb
  have := develop_head (P := fun b => !isdigit b) (fun c hc => ?_) h b hb
  · simpa using this
  · rw [Option.mem_def.1 hc] at hs
    simpa using hs

/-- What is left to scan: inside a run of white space, less the white space. -/
def pending (inSpace : Bool) (buf : Bytes) : Bytes :=
  if inSpace then buf.dropWhile isspace else buf

theorem pending_of_head {inSpace : Bool} {b : UInt8} {l : Bytes} (h : isspace b = false) :
    pending inSpace (b :: l) = b :: l := by
  unfold pending
  rw [List.dropWhile_cons, h]
  split <;> rfl

theorem decimal_pending {inSpace : Bool} (n : Nat) (l : Bytes) :
    pending inSpace (decimal n ++ l) = decimal n ++ l := by
  obtain ⟨d, t, hd, ht⟩ := decimal_head n
  rw [ht, List.cons_append, pending_of_head (digit_class hd).2]

/-- The text of a separated format is scanned back to the arguments. The
induction is on the format; inside a run of white space the message has lost the
white space in front. -/
theorem scan_develop (after : Bytes) (len : Nat) : ∀ {args buf} (inSpace : Bool),
    Separated format = true → develop format args = some buf →
    args.length = conversions format → (∀ a ∈ args, a.Readable) →
    scanLoop after len inSpace format (pending inSpace buf) = some (0, args) := by
  fun_induction Separated format with
  | case1 =>
    intro args buf inSpace _ _ hl _
    rw [conversions, List.length_eq_zero_iff] at hl
    rw [scanLoop, hl]
  | case2 format ih =>
    intro args buf inSpace hs h hl ha
    rw [Bool.and_eq_true] at hs
    rcases args with _ | ⟨_ | _ | _, args⟩ <;> simp only [develop, reduceCtorEq] at h
    next str =>
    obtain ⟨buf', hdev, rfl⟩ := Option.map_eq_some_iff.1 h
    obtain ⟨b, l, hq, hb⟩ := httpQuote_head (ha (.str str) (by simp))
    have hrec := ih false hs.2 hdev (by simpa [conversions] using hl) fun a h => ha a (by simp [h])
    have hscan := scanString_httpQuote str (ends_of_head hs.1 hdev) after
    have hp : pending inSpace (httpQuote str ++ buf') = httpQuote str ++ buf' := by
      rw [hq, List.cons_append, pending_of_head hb]
    rw [hp, scanLoop, hscan]
    simp only [Option.bind_eq_bind, Option.bind_some]
    rw [show buf' = pending false buf' from rfl, hrec]
    rfl
  | case3 format ih =>
    intro args buf inSpace hs h hl ha
    rw [Bool.and_eq_true] at hs
    rcases args with _ | ⟨_ | _ | _, args⟩ <;> simp only [develop, reduceCtorEq] at h
    next i =>
    obtain ⟨buf', hdev, rfl⟩ := Option.map_eq_some_iff.1 h
    obtain ⟨h0, hmax⟩ : 0 ≤ i ∧ i < 2147483630 := ha (.int i) (by simp)
    have hrec := ih false hs.2 hdev (by simpa [conversions] using hl) fun a h => ha a (by simp [h])
    have hscan := scanInt_decimal (n := i.natAbs) (by omega) (noDigit_of_head hs.1 hdev)
    have hi : ((i.natAbs : Nat) : Int) = i := Int.natAbs_of_nonneg h0
    rw [sprintfInt, if_neg (by omega), decimal_pending, scanLoop, hscan]
    simp only [Option.bind_eq_bind]
    rw [show buf' = pending false buf' from rfl, hrec, hi]
    rfl
  | case4 format ih =>
    intro args buf inSpace hs h hl ha
    rw [Bool.and_eq_true] at hs
    rcases args with _ | ⟨_ | _ | _, args⟩ <;> simp only [develop, reduceCtorEq] at h
    next a =>
    obtain ⟨buf', hdev, rfl⟩ := Option.map_eq_some_iff.1 h
    have hrec := ih false hs.2 hdev (by simpa [conversions] using hl) fun a h => ha a (by simp [h])
    obtain ⟨value, hscan, hvalue⟩ := scanAddr_inetNtoa a (noDigit_of_head hs.1 hdev)
    have hp : pending inSpace (inetNtoa a ++ buf') = inetNtoa a ++ buf' := by
      unfold inetNtoa
      rw [List.append_assoc, decimal_pending]
    rw [hp, scanLoop, hscan]
    simp only [Option.bind_eq_bind]
    rw [show buf' = pending false buf' from rfl, hrec, hvalue]
    rfl
  | case5 format ih =>
    intro args buf inSpace hs h hl ha
    rw [develop] at h
    obtain ⟨buf', hdev, rfl⟩ := Option.map_eq_some_iff.1 h
    have hrec := ih false hs hdev hl ha
    rw [pending_of_head (by decide), scanLoop]
    simpa [pending] using hrec
  | case6 => intro _ _ _ hs; exact absurd hs (by simp)
  | case7 c format _ _ _ _ hc ih =>
    intro args buf inSpace hs h hl ha
    rw [develop_char hc] at h
    obtain ⟨buf', hdev, rfl⟩ := Option.map_eq_some_iff.1 h
    have hl' : args.length = conversions format := by
      rw [hl, conversions_char hc]
    have hrec (inSpace : Bool) := ih inSpace hs hdev hl' ha
    rw [scanLoop_char hc]
    rcases hsp : isspace (byte c) with _ | _
    · rw [pending_of_head hsp]
      simpa [pending] using hrec false
    · have hdrop : (byte c :: buf').dropWhile isspace = buf'.dropWhile isspace := by
        rw [List.dropWhile_cons, hsp]
        rfl
      have hnext := hrec true
      rcases inSpace with _ | _
      · simpa [pending, hsp] using hnext
      · simpa [pending, hdrop] using hnext

/-- When `osp2p_writef` returns zero, it has sent the whole message, however the
calls of `write` divided it. -/
theorem send_all {calls : List Written} {sent : Bytes} (h : send buf calls = some (0, sent)) :
    sent = buf := by
  fun_induction send buf calls generalizing sent with
  | case1 => simpa using h.symm
  | case2 => cases h
  | case3 _ _ _ ih => exact ih h
  | case4 => cases h
  | case5 => simp at h
  | case6 buf n calls _ hn ih =>
    obtain ⟨⟨ret, rest⟩, hrest, he⟩ := Option.map_eq_some_iff.1 h
    obtain ⟨rfl, rfl⟩ := Prod.mk.inj he
    rw [ih hrest]
    exact List.take_append_drop ..

theorem scan_written (hs : Separated format = true) (hd : develop format args = some buf)
    (hl : args.length = conversions format) (ha : ∀ a ∈ args, a.Readable) (after : Bytes) :
    osp2pSnscanf buf after format = some (0, args) :=
  scan_develop after buf.length false hs hd hl ha

def getFormat : List Char := ['G', 'E', 'T', ' ', '%', 's', ' ', 'O', 'S', 'P', '2', 'P', '\n']

def haveFormat : List Char := ['H', 'A', 'V', 'E', ' ', '%', 's', '\n']

def wantFormat : List Char := ['W', 'A', 'N', 'T', ' ', '%', 's', '\n']

def addrFormat : List Char :=
  ['A', 'D', 'D', 'R', ' ', '%', 's', ' ', '%', 'I', ':', '%', 'd', '\n']

def peerFormat : List Char :=
  ['P', 'E', 'E', 'R', ' ', '%', 's', ' ', '%', 'I', ':', '%', 'd', '\n']

/-- The messages between peers and tracker for a file name or alias, an address and a port. -/
def messages (s : Bytes) (a : InAddr) (port : Nat) : List (List Char × List Arg) :=
  [(getFormat, [.str s]), (haveFormat, [.str s]), (wantFormat, [.str s]),
    (addrFormat, [.str s, .addr a, .int port]), (peerFormat, [.str s, .addr a, .int port])]

theorem messages_separated {s : Bytes} {a : InAddr} {port : Nat} {m : List Char × List Arg}
    (hm : m ∈ messages s a port) :
    Separated m.1 = true ∧ m.2.length = conversions m.1 ∧ ∃ buf, develop m.1 m.2 = some buf := by
  simp only [messages, List.mem_cons, List.not_mem_nil, or_false] at hm
  rcases hm with rfl | rfl | rfl | rfl | rfl <;> exact ⟨rfl, rfl, _, rfl⟩

theorem messages_readable {s : Bytes} {a : InAddr} {port : Nat} (hs : s ≠ [])
    (hp : port ≤ 65535) {m : List Char × List Arg} (hm : m ∈ messages s a port) :
    ∀ a ∈ m.2, a.Readable := by
  have hstr : (Arg.str s).Readable := hs
  have haddr : (Arg.addr a).Readable := trivial
  have hport : (Arg.int port).Readable := ⟨by omega, by omega⟩
  simp only [messages, List.mem_cons, List.not_mem_nil, or_false] at hm
  rcases hm with rfl | rfl | rfl | rfl | rfl <;> simp [hstr, haddr, hport]

/-- Every message is read back as it was written, whatever follows it in memory. -/
theorem messages_roundTrip {s : Bytes} (a : InAddr) {port : Nat} (hs : s ≠ [])
    (hp : port ≤ 65535) : ∀ m ∈ messages s a port, ∃ buf, develop m.1 m.2 = some buf ∧
      (∀ calls sent, osp2pWritef m.1 m.2 calls = some (0, sent) → sent = buf) ∧
      ∀ after, osp2pSnscanf buf after m.1 = some (0, m.2) := by
  intro m hm
  obtain ⟨hsep, hlen, buf, hdev⟩ := messages_separated hm
  refine ⟨buf, hdev, fun calls sent h => ?_, ?_⟩
  · unfold osp2pWritef at h
    rw [hdev] at h
    exact send_all h
  · exact scan_written hsep hdev hlen (messages_readable hs hp hm)

/-- The file name of one blank, to 10.2.3.4:80. -/
theorem messages_roundTrip_blank : [byte ' '] ≠ [] ∧ 80 ≤ 65535 ∧
    ∀ m ∈ messages [byte ' '] ⟨10, 2, 3, 4⟩ 80, ∃ buf, develop m.1 m.2 = some buf ∧
      (∀ calls sent, osp2pWritef m.1 m.2 calls = some (0, sent) → sent = buf) ∧
      ∀ after, osp2pSnscanf buf after m.1 = some (0, m.2) :=
  ⟨by decide, by decide, messages_roundTrip ⟨10, 2, 3, 4⟩ (by decide) (by decide)⟩

/-- A message of `osp2p.h`: the host is no address. -/
example : osp2pSscanf (['G', 'E', 'T', ' ', 'f', ' ', '1', '2', ':', '4', '0', '\n'].map byte)
    ['G', 'E', 'T', ' ', '%', 's', ' ', '%', 'I', ':', '%', 'd', '\n'] = some (-1, [.str [byte 'f']]) := by decide

end OsLabs.Osp2p
