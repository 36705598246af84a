import OsLabs.Weensy.Console

/-!
# WeensyOS: printed numbers

What `%d`, `%u`, `%x` and `%X` put on the console. `precision` limits the
characters of a string, and the same limit is applied to the digits of a
number. `turn_number_iff`: when the field of a number is complete.
-/

namespace OsLabs.Weensy.Printf

open Numerals

/-! ## The field of a number -/

/-- The number that the conversion `c` prints for the argument `x`, its base and its digits. -/
def valueOf (c : Char) (x : UInt32) : Int := if c = 'd' then toInt x else x.toNat
def baseOf (c : Char) : Nat := if c = 'd' ∨ c = 'u' then 10 else 16
def digitsOf (c : Char) : List Char := if c = 'x' then lowerDigits else upperDigits

/-- The sign that is due: a minus for negative numbers, else what the flags ask for. -/
def dueSign (flags : Nat) (x : Int) : List Char :=
  if x < 0 then ['-']
  else if flags &&& flagPluspositive ≠ 0 then ['+']
  else if flags &&& flagSpacepositive ≠ 0 then [' ']
  else []

/-- The digit string `s` is printed for `x`. -/
structure Numeral (base : Nat) (digits : List Char) (precision x : Int) (s : List Char) : Prop where
  digits_mem : ∀ c ∈ s, c ∈ digits.take base
  denotes : numberOf base digits s = x.natAbs
  precision_le : precision ≤ s.length
  ne_nil : s = [] → x = 0 ∧ precision = 0

/-- Padding, the sign that is due, a digit string for `x`, and `width` characters at least. -/
structure Complete (c : Char) (d : Directive) (x : Int) (chars : List Char) : Prop where
  parts : ∃ left right s, Numeral (baseOf c) (digitsOf c) d.precision x s ∧
    chars = List.replicate left ' ' ++ dueSign d.flags x ++ s ++ List.replicate right ' '
  width_le : d.width ≤ chars.length

variable {text : UInt32 → List Char} {c : Char} {d : Directive} {v : Converted}
  {format rest s : List Char} {val : VaList} {x n : Int}

/-! ## The digits of a conversion -/

theorem ten_le_baseOf (c : Char) : 10 ≤ baseOf c := by
  unfold baseOf
  split_ifs
  · omega
  · omega

theorem baseOf_le (c : Char) : baseOf c ≤ 16 := by
  unfold baseOf
  split_ifs
  · omega
  · omega

theorem digitsOf_eq (c : Char) : digitsOf c = lowerDigits ∨ digitsOf c = upperDigits := by
  unfold digitsOf
  split_ifs
  · exact .inl rfl
  · exact .inr rfl

theorem alphabet (c : Char) : Alphabet (baseOf c) (digitsOf c) := by
  have hb := ten_le_baseOf c
  have hb' := baseOf_le c
  obtain hdigits | hdigits := digitsOf_eq c
  · rw [hdigits]
    exact ⟨by omega, hb', by decide⟩
  · rw [hdigits]
    exact ⟨by omega, hb', by decide⟩

theorem getD_zero (c : Char) : (digitsOf c).getD 0 '\x00' = '0' := by
  obtain hdigits | hdigits := digitsOf_eq c
  · rw [hdigits]
    rfl
  · rw [hdigits]
    rfl

theorem idxOf_zero (c : Char) : (digitsOf c).idxOf '0' = 0 := by
  rw [← getD_zero c]
  exact idxOf_getD (alphabet c) (Nat.lt_of_lt_of_le (by omega) (ten_le_baseOf c))

theorem zero_mem (c : Char) : '0' ∈ (digitsOf c).take (baseOf c) := by
  rw [← getD_zero c]
  exact getD_mem_take (alphabet c).base_le (Nat.lt_of_lt_of_le (by omega) (ten_le_baseOf c))

theorem not_mem_digits (c : Char) {e : Char} (he : e ∈ [' ', '-', '+']) :
    e ∉ (digitsOf c).take (baseOf c) := by
  have hnot : e ∉ digitsOf c := by
    simp only [List.mem_cons, List.not_mem_nil, or_false] at he
    obtain hdigits | hdigits := digitsOf_eq c
    all_goals rw [hdigits]
    all_goals obtain rfl | rfl | rfl := he
    all_goals decide
  exact fun h => hnot (List.mem_of_mem_take h)

/-! ## `int` -/

theorem wrap_of_range (h : -2 ^ 31 ≤ n) (h' : n < 2 ^ 31) : wrap n = n := by
  unfold wrap
  exact Int.bmod_eq_of_le (by omega) (by omega)

theorem wrap_lt (n : Int) : wrap n < 2 ^ 31 := Int.bmod_lt (by decide)

theorem toInt_lt (w : UInt32) : toInt w < 2 ^ 31 := by
  unfold toInt
  exact wrap_lt _

/-- The argument that `%d` gives to `fill_numbuf` is the amount of the number. -/
theorem natAbs_toInt (w : UInt32) : (toInt w).natAbs = (if toInt w > 0 then w else -w).toNat := by
  have hw := w.toNat_lt
  have hneg : (-w).toNat = (2 ^ 32 - w.toNat) % 2 ^ 32 := UInt32.toNat_neg w
  unfold toInt wrap
  rcases Nat.lt_or_ge w.toNat (2 ^ 31) with hlt | hge
  · rw [Int.bmod_eq_of_le (by omega) (by omega)]
    split_ifs with hpos
    · exact Int.natAbs_natCast _
    · omega
  · have hminus : (w.toNat : Int).bmod (2 ^ 32) = w.toNat - 2 ^ 32 := by
      rw [Int.bmod_eq_emod, if_pos (by omega)]
      omega
    rw [hminus, if_neg (by omega)]
    omega

theorem scanNumber_lt (format : List Char) : (scanNumber format).1 < 2 ^ 31 := by
  apply Scan.scanWhile_inv (P := fun n : Int => n < 2 ^ 31)
  · intro n e t _ h
    split_ifs at h
    obtain rfl := Option.some.inj h
    exact wrap_lt _
  · decide

theorem scanCount_lt (first : Char) (format : List Char) (val : VaList) :
    (scanCount first format val).value < 2 ^ 31 := by
  have hnone : (-1 : Int) < 2 ^ 31 := by decide
  unfold scanCount
  split
  · exact hnone
  · split_ifs
    · exact scanNumber_lt _
    · dsimp only
      exact toInt_lt _
    · exact hnone

/-! ## The parts of a field -/

/-- The zeros in front of the string, as many as the loop prints. -/
def zeros (d : Directive) (v : Converted) : Nat :=
  (zerosOf d.flags d.width d.precision (lenOf d.precision v.data) (signOf d.flags v).length
    v.numeric).toNat

/-- The zeros and the string behind the sign. -/
def printed (d : Directive) (v : Converted) : List Char :=
  List.replicate (zeros d v) '0' ++ v.data.take (lenOf d.precision v.data).toNat

theorem zerosOf_nonneg (flags : Nat) (width precision len sign : Int) (numeric : Bool) :
    0 ≤ zerosOf flags width precision len sign numeric := by
  unfold zerosOf
  split_ifs
  · omega
  · omega
  · exact Int.le_refl 0

theorem field_parts (d : Directive) (v : Converted) : ∃ left right,
    field d v =
      List.replicate left ' ' ++ signOf d.flags v ++ printed d v ++ List.replicate right ' ' ∧
      left + right = (wrap (d.width - (lenOf d.precision v.data + zeros d v +
        (signOf d.flags v).length))).toNat := by
  have hzeros : ((zeros d v : Nat) : Int) = zerosOf d.flags d.width d.precision
      (lenOf d.precision v.data) (signOf d.flags v).length v.numeric :=
    Int.toNat_of_nonneg (zerosOf_nonneg _ _ _ _ _ _)
  rw [hzeros]
  unfold field printed
  dsimp only
  generalize hpad : (wrap (d.width - (lenOf d.precision v.data + _ + _))).toNat = pad
  split_ifs
  · exact ⟨pad, 0, by simp [zeros], Nat.add_zero pad⟩
  · exact ⟨0, pad, by simp [zeros], Nat.zero_add pad⟩

/-- The padding makes up for what is missing. -/
theorem width_le_field (hw : d.width < 2 ^ 31) (h0 : 0 ≤ lenOf d.precision v.data)
    (hlen : lenOf d.precision v.data ≤ v.data.length) : d.width ≤ (field d v).length := by
  obtain ⟨left, right, hfield, hpad⟩ := field_parts d v
  have hlength : (field d v).length = left + (signOf d.flags v).length + zeros d v +
      (lenOf d.precision v.data).toNat + right := by
    rw [hfield]
    unfold printed
    simp only [List.length_append, List.length_replicate, List.length_take]
    omega
  by_cases hfits : d.width ≤ lenOf d.precision v.data + zeros d v + (signOf d.flags v).length
  · omega
  · rw [wrap_of_range (by omega) (by omega)] at hpad
    omega

theorem lenOf_eq {precision : Int} {data : List Char} (h : data.length < 2 ^ 31) :
    lenOf precision data =
      if precision ≥ 0 then (min data.length precision.toNat : Nat) else data.length := by
  unfold lenOf strnlen
  split_ifs
  · exact wrap_of_range (by omega) (by omega)
  · exact wrap_of_range (by omega) (by omega)

/-! ## Numbers -/

/-- The string that `fill_numbuf` makes. -/
def digitString (c : Char) (precision x : Int) : List Char :=
  if precision ≠ 0 ∨ x.natAbs ≠ 0 then numeral (baseOf c) (digitsOf c) '\x00' x.natAbs else []

/-- What the directive `d` with the conversion `c` prints. -/
def numberOfDirective (c : Char) (d : Directive) (rest : List Char) : Converted :=
  ⟨digitString c d.precision (valueOf c (d.val 0)), valueOf c (d.val 0) < 0, true, rest,
    fun i => d.val (i + 1)⟩

theorem valueOf_unsigned (hc : c ≠ 'd') (w : UInt32) :
    (valueOf c w).natAbs = w.toNat ∧ decide (valueOf c w < 0) = false := by
  unfold valueOf
  rw [if_neg hc]
  exact ⟨Int.natAbs_natCast _, decide_eq_false (by omega)⟩

theorem natAbs_valueOf_lt (c : Char) (w : UInt32) : (valueOf c w).natAbs < 2 ^ 32 := by
  by_cases hc : c = 'd'
  · unfold valueOf
    rw [if_pos hc, natAbs_toInt]
    exact UInt32.toNat_lt _
  · rw [(valueOf_unsigned hc w).1]
    exact w.toNat_lt

theorem convert_number (text : UInt32 → List Char) (hc : c ∈ ['d', 'u', 'x', 'X'])
    (hd : d.format = c :: rest) : convert text d = some (numberOfDirective c d rest) := by
  unfold convert numberOfDirective digitString
  rw [hd]
  simp only [List.mem_cons, List.not_mem_nil, or_false] at hc
  obtain rfl | rfl | rfl | rfl := hc
  · have hval : valueOf 'd' (d.val 0) = toInt (d.val 0) := if_pos rfl
    show (fillNumbuf numbufsiz (if toInt (d.val 0) > 0 then d.val 0 else -d.val 0).toNat 10
      upperDigits d.precision).map _ = _
    rw [fillNumbuf_eq (by decide), hval, natAbs_toInt]
    rfl
  · obtain ⟨habs, hneg⟩ := valueOf_unsigned (c := 'u') (by decide) (d.val 0)
    show (fillNumbuf numbufsiz (d.val 0).toNat 10 upperDigits d.precision).map _ = _
    rw [fillNumbuf_eq (by decide), habs, hneg]
    rfl
  · obtain ⟨habs, hneg⟩ := valueOf_unsigned (c := 'x') (by decide) (d.val 0)
    show (fillNumbuf numbufsiz (d.val 0).toNat 16 lowerDigits d.precision).map _ = _
    rw [fillNumbuf_eq (by decide), habs, hneg]
    rfl
  · obtain ⟨habs, hneg⟩ := valueOf_unsigned (c := 'X') (by decide) (d.val 0)
    show (fillNumbuf numbufsiz (d.val 0).toNat 16 upperDigits d.precision).map _ = _
    rw [fillNumbuf_eq (by decide), habs, hneg]
    rfl

theorem signOf_number : signOf d.flags (numberOfDirective c d rest) =
    dueSign d.flags (valueOf c (d.val 0)) := by
  unfold signOf dueSign numberOfDirective
  simp only [decide_eq_true_eq, true_and]

theorem mem_digitString {precision : Int} {e : Char} (he : e ∈ digitString c precision x) :
    e ∈ (digitsOf c).take (baseOf c) := by
  unfold digitString at he
  split_ifs at he
  · exact mem_numeral (alphabet c) he
  · exact absurd he List.not_mem_nil

theorem numberOf_digitString {precision : Int} :
    numberOf (baseOf c) (digitsOf c) (digitString c precision x) = x.natAbs := by
  unfold digitString
  split_ifs with h
  · exact numberOf_numeral (alphabet c)
  · have h0 : x.natAbs = 0 := by omega
    rw [h0]
    rfl

/-- A number of `p` digits at most has a string of `p` characters at most. -/
theorem length_digitString_le {precision : Int} {p : Nat} (hp : 0 < p ∨ precision = 0)
    (h : x.natAbs < baseOf c ^ p) : (digitString c precision x).length ≤ p := by
  have hb := ten_le_baseOf c
  unfold digitString
  split_ifs with hsome
  · by_cases h0 : x.natAbs = 0
    · rw [h0, numeral_of_lt _ _ (by omega)]
      show 1 ≤ p
      omega
    · exact (length_numeral_le_iff (by omega) h0).2 h
  · exact Nat.zero_le p

theorem length_digitString_lt (precision : Int) (w : UInt32) :
    (digitString c precision (valueOf c w)).length < 2 ^ 31 := by
  have hlt : (valueOf c w).natAbs < baseOf c ^ 32 :=
    calc (valueOf c w).natAbs
      _ < 2 ^ 32 := natAbs_valueOf_lt c w
      _ ≤ baseOf c ^ 32 := Nat.pow_le_pow_left (Nat.le_trans (by decide) (ten_le_baseOf c)) 32
  have hle : (digitString c precision (valueOf c w)).length ≤ 32 :=
    length_digitString_le (.inl (by decide)) hlt
  omega

/-- Where the precision does not cut, the whole string is printed behind the zeros. -/
theorem printed_all (rest : List Char) (h : d.precision < 0 ∨
    (valueOf c (d.val 0)).natAbs < baseOf c ^ d.precision.toNat) :
    let v := numberOfDirective c d rest
    printed d v = List.replicate (zeros d v) '0' ++ v.data ∧
      d.precision ≤ (printed d v).length := by
  intro v
  have hshort : v.data.length < 2 ^ 31 := length_digitString_lt _ _
  have hlen : lenOf d.precision v.data = _ := lenOf_eq hshort
  rcases lt_or_ge d.precision 0 with hneg | hpos
  · rw [if_neg (by omega)] at hlen
    unfold printed
    rw [hlen, Int.toNat_natCast, List.take_length]
    exact ⟨rfl, by omega⟩
  · have hlt := h.resolve_left (by omega)
    have hdata : v.data.length ≤ d.precision.toNat := length_digitString_le (by omega) hlt
    rw [if_pos hpos, Nat.min_eq_left hdata] at hlen
    have hzeros : zeros d v = d.precision.toNat - v.data.length := by
      unfold zeros zerosOf
      rw [hlen]
      split_ifs with hmore hflag
      · omega
      · exact absurd hflag.2.2.1 (by omega)
      · have hequal : ¬ d.precision > v.data.length := fun hgt => hmore ⟨rfl, hgt⟩
        omega
    unfold printed
    rw [hlen, Int.toNat_natCast, List.take_length, hzeros, List.length_append,
      List.length_replicate]
    exact ⟨rfl, by omega⟩

/-- Where it cuts, as many digits are printed as the precision says. -/
theorem printed_cut (rest : List Char) (h0 : 0 ≤ d.precision)
    (h : baseOf c ^ d.precision.toNat ≤ (valueOf c (d.val 0)).natAbs) :
    let v := numberOfDirective c d rest
    printed d v = v.data.take d.precision.toNat ∧
      (printed d v).length = d.precision.toNat := by
  intro v
  have hb := ten_le_baseOf c
  have hx : (valueOf c (d.val 0)).natAbs ≠ 0 := by
    have hpos : 0 < baseOf c ^ d.precision.toNat := Nat.pow_pos (by omega)
    omega
  have hdata : d.precision.toNat < v.data.length := by
    apply Nat.lt_of_not_le
    intro hle
    have hnum : v.data = numeral (baseOf c) (digitsOf c) '\x00' (valueOf c (d.val 0)).natAbs :=
      if_pos (.inr hx)
    rw [hnum, length_numeral_le_iff (by omega) hx] at hle
    omega
  have hshort : v.data.length < 2 ^ 31 := length_digitString_lt _ _
  have hlen : lenOf d.precision v.data = d.precision := by
    rw [lenOf_eq hshort, if_pos h0, Nat.min_eq_right (Nat.le_of_lt hdata)]
    omega
  have hzeros : zeros d v = 0 := by
    unfold zeros zerosOf
    rw [hlen, if_neg (by omega), if_neg (by omega)]
    rfl
  unfold printed
  rw [hlen, hzeros]
  refine ⟨rfl, ?_⟩
  rw [List.replicate_zero, List.nil_append, List.length_take]
  omega

/-! ## Completeness -/

theorem dueSign_mem {flags : Nat} {e : Char} (he : e ∈ dueSign flags x) :
    e ∈ [' ', '-', '+'] := by
  unfold dueSign at he
  split_ifs at he
  · rw [List.mem_singleton.1 he]
    decide
  · rw [List.mem_singleton.1 he]
    decide
  · rw [List.mem_singleton.1 he]
    decide
  · exact absurd he List.not_mem_nil

/-- The digits of a field can be counted, however it is cut into parts. -/
theorem countP_parts (c : Char) (flags left right : Nat) (x : Int) {s : List Char}
    (hs : ∀ e ∈ s, e ∈ (digitsOf c).take (baseOf c)) :
    (List.replicate left ' ' ++ dueSign flags x ++ s ++ List.replicate right ' ').countP
      (· ∈ (digitsOf c).take (baseOf c)) = s.length := by
  have hspaces (n : Nat) : (List.replicate n ' ').countP
      (· ∈ (digitsOf c).take (baseOf c)) = 0 := by
    apply List.countP_eq_zero.2
    intro e he
    rw [List.eq_of_mem_replicate he, decide_eq_true_eq]
    exact not_mem_digits c (by decide)
  have hsign : (dueSign flags x).countP (· ∈ (digitsOf c).take (baseOf c)) = 0 := by
    apply List.countP_eq_zero.2
    intro e he
    rw [decide_eq_true_eq]
    exact not_mem_digits c (dueSign_mem he)
  have hdigits : s.countP (· ∈ (digitsOf c).take (baseOf c)) = s.length := by
    apply List.countP_eq_length.2
    intro e he
    exact decide_eq_true (hs e he)
  rw [List.countP_append, List.countP_append, List.countP_append, hspaces, hspaces, hsign, hdigits]
  omega

theorem lenOf_number (d : Directive) (c : Char) (rest : List Char) :
    let v := numberOfDirective c d rest
    0 ≤ lenOf d.precision v.data ∧ lenOf d.precision v.data ≤ v.data.length := by
  intro v
  have hshort : v.data.length < 2 ^ 31 := length_digitString_lt _ _
  rw [lenOf_eq hshort]
  split_ifs
  · omega
  · omega

/-- What is printed without a cut is a digit string for the number. -/
theorem numeral_printed (h : d.precision < 0 ∨
    (valueOf c (d.val 0)).natAbs < baseOf c ^ d.precision.toNat) :
    Numeral (baseOf c) (digitsOf c) d.precision (valueOf c (d.val 0))
      (printed d (numberOfDirective c d rest)) := by
  obtain ⟨hall, hprecision⟩ := printed_all rest h
  refine ⟨fun e he => ?_, ?_, hprecision, fun hnil => ?_⟩
  · rw [hall] at he
    rcases List.mem_append.1 he with hzero | hdata
    · rw [List.eq_of_mem_replicate hzero]
      exact zero_mem c
    · exact mem_digitString hdata
  · rw [hall, numberOf_zeros (idxOf_zero c)]
    exact numberOf_digitString
  · rw [hall] at hnil
    have hdata : digitString c d.precision (valueOf c (d.val 0)) = [] :=
      (List.append_eq_nil_iff.1 hnil).2
    unfold digitString at hdata
    split_ifs at hdata with hsome
    · exact absurd hdata numeral_ne_nil
    · omega

theorem complete_number_iff (rest : List Char) (hw : d.width < 2 ^ 31) :
    Complete c d (valueOf c (d.val 0)) (field d (numberOfDirective c d rest)) ↔
      d.precision < 0 ∨ (valueOf c (d.val 0)).natAbs < baseOf c ^ d.precision.toNat := by
  obtain ⟨left, right, hfield, -⟩ := field_parts d (numberOfDirective c d rest)
  rw [signOf_number] at hfield
  constructor
  · rintro ⟨⟨left', right', s, hnum, hparts⟩, -⟩
    by_contra hcut
    obtain ⟨hprinted, hlength⟩ := printed_cut (c := c) (d := d) rest (by omega) (by omega)
    -- both ways to cut the field have `precision` digits
    have hmem : ∀ e ∈ printed d (numberOfDirective c d rest),
        e ∈ (digitsOf c).take (baseOf c) := by
      intro e he
      rw [hprinted] at he
      exact mem_digitString (List.mem_of_mem_take he)
    have hcount := countP_parts c d.flags left' right' (valueOf c (d.val 0)) hnum.digits_mem
    rw [← hparts, hfield, countP_parts c _ _ _ _ hmem, hlength] at hcount
    have hlt := numberOf_lt (alphabet c) hnum.digits_mem
    rw [hnum.denotes, ← hcount] at hlt
    omega
  · intro h
    obtain ⟨h0, hlen⟩ := lenOf_number d c rest
    exact ⟨⟨left, right, _, numeral_printed h, hfield⟩, width_le_field hw h0 hlen⟩

/-- **The field of a number is complete exactly if the precision does not cut it.** For `%d`,
`%u`, `%x` and `%X` under any flags, width and precision and for every argument: the field is
padding, sign and digit string and as wide as asked for exactly if no precision is given or the
number has no more digits than the precision says. -/
theorem turn_number_iff (text : UInt32 → List Char) (s : Vprintf) (hc : c ∈ ['d', 'u', 'x', 'X'])
    (hd : (directive format s.val).format = c :: rest) :
    let d := directive format s.val
    ∃ v, convert text d = some v ∧
      turn text s '%' format = some { s with
        console := (field d v).foldl (consolePutc s.color) s.console
        format := rest, val := fun i => d.val (i + 1) } ∧
      (Complete c d (valueOf c (d.val 0)) (field d v) ↔
        d.precision < 0 ∨ (valueOf c (d.val 0)).natAbs < baseOf c ^ d.precision.toNat) := by
  intro d
  have hv : convert text d = some (numberOfDirective c d rest) := convert_number text hc hd
  refine ⟨_, hv, ?_, complete_number_iff rest (scanCount_lt _ _ _)⟩
  unfold turn
  rw [if_neg (by decide)]
  dsimp only
  split
  · rename_i other hother
    obtain rfl : c = 'C' := (List.cons.inj (hd.symm.trans hother)).1
    exact absurd hc (by decide)
  · change (convert text d).map _ = _
    rw [hv]
    rfl

/-- `%5d` of 42 -/
theorem turn_number_fortyTwo :
    ∃ v, convert (fun _ => []) (directive "5d".toList fun _ => 42) = some v ∧
      Complete 'd' (directive "5d".toList fun _ => 42) 42
        (field (directive "5d".toList fun _ => 42) v) := by
  have hval : valueOf 'd' ((directive "5d".toList fun _ => 42).val 0) = 42 := by decide +kernel
  obtain ⟨v, hv, -, hiff⟩ := turn_number_iff (fun _ => [])
    ⟨⟨0, []⟩, 0x0700, "%5d".toList, fun _ => 42⟩ (show 'd' ∈ ['d', 'u', 'x', 'X'] by decide)
    (show (directive "5d".toList fun _ => 42).format = ['d'] by decide)
  dsimp only at hv hiff
  rw [hval] at hiff
  exact ⟨v, hv, hiff.2 (by decide +kernel)⟩

/-- `%.1d` prints 4 for 42. -/
theorem fortyTwo_not_complete :
    ∃ v, convert (fun _ => []) (directive ".1d".toList fun _ => 42) = some v ∧
      valueOf 'd' ((directive ".1d".toList fun _ => 42).val 0) = 42 ∧
      field (directive ".1d".toList fun _ => 42) v = ['4'] ∧
      ¬ Complete 'd' (directive ".1d".toList fun _ => 42) 42
        (field (directive ".1d".toList fun _ => 42) v) := by
  have hval : valueOf 'd' ((directive ".1d".toList fun _ => 42).val 0) = 42 := by decide +kernel
  have hv : convert (fun _ => []) (directive ".1d".toList fun _ => 42) =
      some (numberOfDirective 'd' (directive ".1d".toList fun _ => 42) []) :=
    convert_number _ (by decide) (by decide)
  have hiff := complete_number_iff (c := 'd') (d := directive ".1d".toList fun _ => 42) []
    (by decide)
  rw [hval] at hiff
  exact ⟨_, hv, hval, by decide +kernel, fun h => absurd (hiff.1 h) (by decide +kernel)⟩

end OsLabs.Weensy.Printf
