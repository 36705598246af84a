import OsLabs.Lib.Components
import OsLabs.Osp2p.Writescan

/-!
# Which files are shared

The checks of `task_upload` between the request and the transfer. `getcwd` and
`realpath` give canonical paths: absolute, without `.`, `..` and empty names. The code
asks whether the text of the current directory begins the text of the file's path, which
a sibling of the directory passes as well when its name goes on from the directory's
(`staysBelow_iff`).
-/

namespace OsLabs.Osp2p

open Scan Components

structure IsName (c : Bytes) : Prop where
  ne_nil : c ≠ []
  no_slash : byte '/' ∉ c
  no_nul : (0 : UInt8) ∉ c
  ne_dot : c ≠ [byte '.']
  ne_dotdot : c ≠ [byte '.', byte '.']

instance (c : Bytes) : Decidable (IsName c) :=
  decidable_of_iff (c ≠ [] ∧ byte '/' ∉ c ∧ (0 : UInt8) ∉ c ∧ c ≠ [byte '.'] ∧
    c ≠ [byte '.', byte '.'])
    ⟨fun ⟨h1, h2, h3, h4, h5⟩ => ⟨h1, h2, h3, h4, h5⟩,
      fun ⟨h1, h2, h3, h4, h5⟩ => ⟨h1, h2, h3, h4, h5⟩⟩

structure CanonicalPath where
  names : List Bytes
  valid : ∀ c ∈ names, IsName c

namespace CanonicalPath

def text (p : CanonicalPath) : Bytes := render (byte '/') p.names

/-- `p` is the directory `dir` or lies below it. -/
def Below (p dir : CanonicalPath) : Prop := dir.names <+: p.names

/-- `p` lies in or below a sibling of `dir` whose name goes on from that of `dir`. -/
def Beside (p dir : CanonicalPath) : Prop := Overhangs dir.names p.names

end CanonicalPath

/-- The files, as the system calls of `task_upload` show them; they do not change meanwhile. -/
structure Files where
  getcwd : Option CanonicalPath
  realpath : Bytes → Option CanonicalPath
  /-- `stat` on a path of `realpath` succeeds. -/
  stats : CanonicalPath → Bool
  /-- `open` succeeds. -/
  opens : Bytes → Bool

/-- The byte at the pointer; a string ends with NUL. -/
def charAt (s : Bytes) : UInt8 := s.head?.getD 0

def strncmp : (n : Nat) → Bytes → Bytes → Int
  | 0, _, _ => 0
  | n + 1, a, b =>
    if charAt a ≠ charAt b then (charAt a).toNat - (charAt b).toNat
    else if charAt a = 0 then 0
    else strncmp n a.tail b.tail

/-- What comes of a request; `notInside` stands for "File is not in the current directory". -/
inductive Shared where
  | devZero
  | invalidPath
  | doesntExist
  | notInside
  | cannotOpen
  | opened (file : CanonicalPath)

/-- `task_upload` from the call of `getcwd` up to the opening of the file. -/
def openShared (fs : Files) (evilMode : Int) (filename : Bytes) : Shared :=
  if evilMode = 1 then .devZero
  else
    match fs.getcwd with
    | none => .invalidPath
    | some currPath =>
      match fs.realpath filename with
      | none => .invalidPath
      | some filePath =>
        if fs.stats filePath = false then .doesntExist
        else if strncmp currPath.text.length currPath.text filePath.text ≠ 0 then .notInside
        else if fs.opens filename then .opened filePath
        else .cannotOpen

/-- A file that is opened for the peer lies in the current directory or below it. -/
def StaysBelow (fs : Files) (filename : Bytes) : Prop :=
  ∀ file, openShared fs 0 filename = .opened file → ∃ cwd, fs.getcwd = some cwd ∧ file.Below cwd

section

variable {p q : CanonicalPath} {a b : Bytes}

theorem toNat_sub_ne_zero {c d : UInt8} (h : c ≠ d) : (c.toNat : Int) - d.toNat ≠ 0 := by
  have : c.toNat ≠ d.toNat := fun e => h (UInt8.toNat_inj.mp e)
  omega

/-- Over the length of a string the comparison asks whether it begins the other one. -/
theorem strncmp_length : ∀ {a b : Bytes}, (0 : UInt8) ∉ a →
    (strncmp a.length a b = 0 ↔ a <+: b)
  | [], b, _ => by simp [strncmp]
  | c :: a, b, h => by
    have hc : c ≠ 0 := fun e => h (by simp [e])
    rw [List.length_cons, strncmp]
    cases b with
    | nil =>
      rw [if_pos (show charAt (c :: a) ≠ charAt [] from hc)]
      exact iff_of_false (toNat_sub_ne_zero hc) (by simp)
    | cons d b =>
      by_cases hd : c = d
      · subst hd
        rw [if_neg (by simp [charAt]), if_neg (show ¬ charAt (c :: a) = 0 from hc),
          List.cons_prefix_cons, and_iff_right rfl]
        exact strncmp_length fun e => h (List.mem_cons_of_mem _ e)
      · rw [if_pos (show charAt (c :: a) ≠ charAt (d :: b) from hd), List.cons_prefix_cons]
        exact iff_of_false (toNat_sub_ne_zero hd) fun he => hd he.1

theorem CanonicalPath.no_nul (p : CanonicalPath) : (0 : UInt8) ∉ p.text := by
  have hflat : (0 : UInt8) ∉ flat (byte '/') p.names := by
    simp only [flat, List.mem_flatMap, List.mem_cons, not_exists, not_and]
    rintro c hc (h | h)
    · cases h
    · exact (p.valid c hc).no_nul h
  by_cases h : p.names = []
  · rw [text, h]
    decide
  · rw [text, render_of_ne_nil h]
    exact hflat

theorem CanonicalPath.text_prefix_iff : q.text <+: p.text ↔ p.Below q ∨ p.Beside q :=
  render_prefix_iff (fun c hc => ⟨(q.valid c hc).ne_nil, (q.valid c hc).no_slash⟩)
    fun c hc => ⟨(p.valid c hc).ne_nil, (p.valid c hc).no_slash⟩

end

theorem openShared_opened {fs : Files} {filename : Bytes} {file : CanonicalPath} :
    openShared fs 0 filename = .opened file ↔ ∃ cwd, fs.getcwd = some cwd ∧
      fs.realpath filename = some file ∧ fs.stats file = true ∧ fs.opens filename = true ∧
      (file.Below cwd ∨ file.Beside cwd) := by
  rw [openShared, if_neg (by decide)]
  cases hcwd : fs.getcwd with
  | none => simp
  | some cwd =>
    cases hfile : fs.realpath filename with
    | none => simp
    | some filePath =>
      have hcmp : strncmp cwd.text.length cwd.text filePath.text = 0 ↔
          filePath.Below cwd ∨ filePath.Beside cwd :=
        (strncmp_length cwd.no_nul).trans CanonicalPath.text_prefix_iff
      dsimp only
      simp only [Option.some.injEq, exists_eq_left']
      split
      · next hs =>
        refine iff_of_false nofun ?_
        rintro ⟨rfl, h, -⟩
        rw [hs] at h
        cases h
      · next hs =>
        split
        · next hc =>
          refine iff_of_false nofun ?_
          rintro ⟨rfl, -, -, h⟩
          exact hc (hcmp.mpr h)
        · next hc =>
          split
          · next ho =>
            rw [Shared.opened.injEq]
            constructor
            · rintro rfl
              exact ⟨rfl, by simpa using hs, ho, hcmp.mp (not_not.mp hc)⟩
            · exact fun h => h.1
          · next ho => exact iff_of_false nofun fun h => ho h.2.2.1

/-- **Uploads stay below the shared directory** iff the request leads to no file that can be
opened beside it, under a name that goes on from the name of the directory. -/
theorem staysBelow_iff (fs : Files) (filename : Bytes) :
    StaysBelow fs filename ↔ ∀ cwd file, fs.getcwd = some cwd → fs.realpath filename = some file →
      fs.stats file = true → fs.opens filename = true → ¬ file.Beside cwd := by
  constructor
  · intro h cwd file hcwd hfile hs ho hbeside
    obtain ⟨cwd', hcwd', hbelow⟩ := h file
      (openShared_opened.mpr ⟨cwd, hcwd, hfile, hs, ho, .inr hbeside⟩)
    rw [hcwd] at hcwd'
    cases hcwd'
    exact hbeside.not_prefix hbelow
  · intro h file hopen
    obtain ⟨cwd, hcwd, hfile, hs, ho, hbelow | hbeside⟩ := openShared_opened.mp hopen
    · exact ⟨cwd, hcwd, hbelow⟩
    · exact absurd hbeside (h cwd file hcwd hfile hs ho)

/-- The current directory is `/d`, and there is a file `/dx`. -/
def siblingFiles : Files where
  getcwd := some ⟨[[byte 'd']], by decide⟩
  realpath f :=
    if f = ['.', '.', '/', 'd', 'x'].map byte then some ⟨[[byte 'd', byte 'x']], by decide⟩ else none
  stats _ := true
  opens _ := true

/-- The request for `../dx` leaves the directory. -/
theorem sibling_not_staysBelow :
    ¬ StaysBelow siblingFiles (['.', '.', '/', 'd', 'x'].map byte) := by
  intro h
  obtain ⟨cwd, hcwd, hbelow⟩ := h ⟨[[byte 'd', byte 'x']], by decide⟩ (by rfl)
  cases hcwd
  revert hbelow
  show ¬ [[byte 'd']] <+: [[byte 'd', byte 'x']]
  decide

end OsLabs.Osp2p
