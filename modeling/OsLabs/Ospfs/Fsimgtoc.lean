import OsLabs.Lib.Initializer

/-!
# OSPFS: the image as C text

`print` of `fsimgtoc` as the bytes it writes. `fsimgtoc_round_trip`: a compiler that
reads the declaration gets the image back.
-/

namespace OsLabs.Ospfs

open Scan Initializer

namespace Fsimgtoc

def designatedInitializers : Bool := true

/-- What is printed in front of byte `n`, when bytes `last` to `n - 1` are 0 and not yet printed. -/
def gap (last n : Nat) : List UInt8 :=
  if (last : Int) ≤ (n : Int) - 4 then text "[" ++ decimal n ++ text "]="
  else (List.replicate (n - last) (text "0,")).flatten

/-- The loop of `print`, in front of byte `n`. -/
def printLoop (last n printed : Nat) : List UInt8 → List UInt8
  | [] => []
  | c :: f =>
    if c = 0 ∧ designatedInitializers then printLoop last (n + 1) printed f
    else
      gap last n ++ decimal c.toNat ++ text "," ++
        (if (printed + 1) % 19 = 0 then text "\n" else []) ++
        printLoop (n + 1) (n + 1) (printed + 1) f

def print (f : List UInt8) (size : Nat) : List UInt8 :=
  text "unsigned char ospfs_data[" ++ decimal size ++ text "] = \x7b\n" ++ printLoop 0 0 0 f ++
    text "\x7d;\nuint32_t ospfs_length = " ++ decimal size ++ text ";\n"

/-! ## The items that are printed -/

def gapItems (last n : Nat) : List Item :=
  if last + 4 ≤ n then [] else List.replicate (n - last) ⟨none, 0⟩

def printItems (last n : Nat) : List UInt8 → List Item
  | [] => []
  | c :: f =>
    if c = 0 then printItems last (n + 1) f
    else
      gapItems last n ++ ⟨if last + 4 ≤ n then some n else none, c.toNat⟩ ::
        printItems (n + 1) (n + 1) f

variable {f : List UInt8} {last n printed : Nat} {ts : List Token} {rest : List UInt8}

theorem lex_comma (hts : lex rest = some ts) : lex (text "," ++ rest) = some (.comma :: ts) :=
  lex_punct rfl rfl rfl hts

theorem lex_constant (v : Nat) (hts : lex rest = some ts) :
    lex (decimal v ++ text "," ++ rest) = some (.number v :: .comma :: ts) := by
  rw [List.append_assoc]
  exact lex_decimal v (head_not_word rfl) (lex_comma hts)

theorem lex_zeros (k : Nat) (hts : lex rest = some ts) :
    lex ((List.replicate k (text "0,")).flatten ++ rest) =
      some ((List.replicate k (⟨none, 0⟩ : Item)).flatMap Item.tokens ++ ts) := by
  induction k with
  | zero => exact hts
  | succ k ih =>
    rw [List.replicate_succ, List.flatten_cons, List.append_assoc, List.replicate_succ,
      List.flatMap_cons, List.append_assoc]
    exact lex_constant 0 ih

theorem lex_designator (n : Nat) (hts : lex rest = some ts) :
    lex (text "[" ++ decimal n ++ text "]=" ++ rest) =
      some (.lbrack :: .number n :: .rbrack :: .equals :: ts) := by
  rw [List.append_assoc, List.append_assoc]
  have hclose := lex_punct (c := byte ']') rfl rfl rfl (lex_punct (c := byte '=') rfl rfl rfl hts)
  exact lex_punct rfl rfl rfl (lex_decimal n (head_not_word rfl) hclose)

theorem lex_printLoop (f : List UInt8) (last n printed : Nat) (hts : lex rest = some ts) :
    lex (printLoop last n printed f ++ rest) =
      some ((printItems last n f).flatMap Item.tokens ++ ts) := by
  induction f generalizing last n printed with
  | nil => exact hts
  | cons c f ih =>
    unfold printLoop printItems
    by_cases hc : c = 0
    · rw [if_pos ⟨hc, rfl⟩, if_pos hc]
      exact ih last (n + 1) printed
    · rw [if_neg fun h => hc h.1, if_neg hc, List.flatMap_append, List.flatMap_cons]
      have hrest := ih (n + 1) (n + 1) (printed + 1)
      have hline : lex ((if (printed + 1) % 19 = 0 then text "\n" else []) ++
          (printLoop (n + 1) (n + 1) (printed + 1) f ++ rest)) =
          some ((printItems (n + 1) (n + 1) f).flatMap Item.tokens ++ ts) := by
        split
        · exact lex_blank rfl rfl hrest
        · exact hrest
      have hconst := lex_constant c.toNat hline
      simp only [List.append_assoc] at hconst ⊢
      unfold gap gapItems
      by_cases hgap : last + 4 ≤ n
      · rw [if_pos (by omega), if_pos hgap, if_pos hgap]
        have hitem := lex_designator n hconst
        simp only [List.append_assoc] at hitem ⊢
        exact hitem
      · rw [if_neg (by omega), if_neg hgap, if_neg hgap]
        exact lex_zeros (n - last) hconst

/-- The items for a gap of `k` zeros and the byte `c` behind it store that byte. -/
theorem foldlM_byte (q : List UInt8) (k m : Nat) (c : UInt8) (is : List Item) :
    (gapItems q.length (q.length + k) ++
        ⟨if q.length + 4 ≤ q.length + k then some (q.length + k) else none, c.toNat⟩ :: is).foldlM
          (store UInt8.ofNat) (q ++ List.replicate (k + (m + 1)) 0, q.length) =
      is.foldlM (store UInt8.ofNat)
        ((q ++ List.replicate k 0 ++ [c]) ++ List.replicate m 0, q.length + k + 1) := by
  have hbyte : UInt8.ofNat c.toNat = c := UInt8.ofNat_toNat
  have hzero : (0 : UInt8) = UInt8.ofNat 0 := rfl
  have hstore := store_behind UInt8.ofNat q k m
  unfold gapItems
  by_cases hgap : q.length + 4 ≤ q.length + k
  · rw [if_pos hgap, if_pos hgap, List.nil_append, List.foldlM_cons, hzero, hstore _ _ rfl, hbyte]
    rfl
  · have hzeros := foldlM_zeros UInt8.ofNat q k (m + 1)
    have hk : q.length + k - q.length = k := by omega
    rw [if_neg hgap, if_neg hgap, hk, List.foldlM_append, hzero, hzeros]
    show List.foldlM _ _ _ = _
    rw [List.foldlM_cons, hstore _ _ rfl, hbyte]
    rfl

/-- The items give the bytes from `q.length + k` on, when the `k` bytes in front are 0. -/
theorem foldlM_printItems (q : List UInt8) (k : Nat) (f : List UInt8) :
    ∃ next, (printItems q.length (q.length + k) f).foldlM (store UInt8.ofNat)
        (q ++ List.replicate (k + f.length) 0, q.length) =
      some (q ++ List.replicate k 0 ++ f, next) := by
  induction f generalizing q k with
  | nil => exact ⟨q.length, by rw [List.append_nil]; rfl⟩
  | cons c f ih =>
    unfold printItems
    by_cases hc : c = 0
    · obtain ⟨next, hnext⟩ := ih q (k + 1)
      have hlen : k + 1 + f.length = k + (c :: f).length := by
        rw [List.length_cons]
        omega
      rw [hlen] at hnext
      refine ⟨next, ?_⟩
      rw [if_pos hc, Nat.add_assoc, hnext, List.replicate_succ', hc]
      simp
    · obtain ⟨next, hnext⟩ := ih (q ++ List.replicate k 0 ++ [c]) 0
      refine ⟨next, ?_⟩
      have hq : (q ++ List.replicate k 0 ++ [c]).length = q.length + k + 1 := by
        simp only [List.length_append, List.length_replicate, List.length_singleton]
      rw [hq, Nat.add_zero, Nat.zero_add, List.replicate_zero, List.append_nil] at hnext
      rw [if_neg hc, List.length_cons, foldlM_byte, hnext, List.append_assoc _ [c] f]
      rfl

theorem lex_end (size : Nat) :
    lex (text "\x7d;\nuint32_t ospfs_length = " ++ (decimal size ++ text ";\n")) =
      some [.rbrace, .semicolon, .ident (text "uint32_t"), .ident (text "ospfs_length"), .equals,
        .number size, .semicolon] := by
  have hsize : lex (decimal size ++ text ";\n") = some [.number size, .semicolon] :=
    lex_decimal size (head_not_word rfl) rfl
  have hname : lex (text "ospfs_length" ++ (text " = " ++ (decimal size ++ text ";\n"))) =
      some [.ident (text "ospfs_length"), .equals, .number size, .semicolon] := by
    refine lex_word (by decide) (by decide) rfl (head_not_word rfl) ?_
    exact lex_blank rfl rfl (lex_punct rfl rfl rfl (lex_blank rfl rfl hsize))
  have htype : lex (text "uint32_t" ++
      (text " ospfs_length = " ++ (decimal size ++ text ";\n"))) =
      some [.ident (text "uint32_t"), .ident (text "ospfs_length"), .equals, .number size,
        .semicolon] :=
    lex_word (by decide) (by decide) rfl (head_not_word rfl) (lex_blank rfl rfl hname)
  exact lex_punct rfl rfl rfl (lex_punct rfl rfl rfl (lex_blank rfl rfl htype))

theorem lex_declarator (size : Nat) (hts : lex rest = some ts) :
    lex (text "unsigned char ospfs_data[" ++ (decimal size ++ (text "] = \x7b\n" ++ rest))) =
      some (.ident (text "unsigned") :: .ident (text "char") :: .ident (text "ospfs_data") ::
        .lbrack :: .number size :: .rbrack :: .equals :: .lbrace :: ts) := by
  have hbrace : lex (text "] = \x7b\n" ++ rest) =
      some (.rbrack :: .equals :: .lbrace :: ts) :=
    lex_punct rfl rfl rfl (lex_blank rfl rfl (lex_punct rfl rfl rfl (lex_blank rfl rfl
      (lex_punct rfl rfl rfl (lex_blank rfl rfl hts)))))
  have hsize := lex_decimal size (l := text "] = \x7b\n" ++ rest)
    (head_not_word rfl) hbrace
  have hname : lex (text "ospfs_data" ++
      (text "[" ++ (decimal size ++ (text "] = \x7b\n" ++ rest)))) =
      some (.ident (text "ospfs_data") :: .lbrack :: .number size :: .rbrack :: .equals ::
        .lbrace :: ts) :=
    lex_word (by decide) (by decide) rfl
      (head_not_word rfl)
      (lex_punct rfl rfl rfl hsize)
  have hchar := lex_word (w := text "char") (by decide) (by decide) rfl
    (head_not_word rfl)
    (lex_blank (c := byte ' ') rfl rfl hname)
  exact lex_word (w := text "unsigned") (by decide) (by decide) rfl
    (head_not_word rfl)
    (lex_blank (c := byte ' ') rfl rfl hchar)

/-- **The image survives conversion to C.** The array that the printed text defines is the
file. -/
theorem fsimgtoc_round_trip (f : List UInt8) : ucharArray (print f f.length) = some f := by
  obtain ⟨next, hitems⟩ := foldlM_printItems [] 0 f
  rw [List.length_nil, List.nil_append, List.replicate_zero, List.nil_append, Nat.zero_add,
    Nat.zero_add] at hitems
  have helements : elements UInt8.ofNat f.length (printItems 0 0 f) = some f := by
    have hzero : UInt8.ofNat 0 = 0 := rfl
    unfold elements
    rw [hzero, hitems]
    rfl
  have hlex := lex_declarator f.length (lex_printLoop f 0 0 0 (lex_end f.length))
  unfold ucharArray print
  simp only [List.append_assoc] at hlex ⊢
  rw [hlex]
  show (Option.map _ (items _)).bind _ = _
  rw [items_tokens]
  exact helements

example : print [7, 0, 0, 9, 0, 0, 0, 0, 255] 9 = text
    "unsigned char ospfs_data[9] = \x7b\n7,0,0,9,[8]=255,\x7d;\nuint32_t ospfs_length = 9;\n" := by
  decide

end Fsimgtoc

end OsLabs.Ospfs
