import Hiper.Lib.PathTable
import Hiper.StringUtil.Basic
import Mathlib.Data.List.DropRight

/-!
# Files and the calls that remove them

What `FSUtil` asks the kernel: the files below the root, as a table by path, and `lstat`,
`opendir`, `unlink` and `rmdir`, which are given the components of a path.  The components
before the last are followed through symlinks (`walk`); the last is not, unless it is one
that names the directory before (`resolve`).  A trailing slash is an empty component.
What a `Policy` denies fails, whatever the reason.

All of this only depends on what is there (`Within`): where a path leads with fewer files,
it leads with more.

A file has its kind and its permissions, and whether a call on it is permitted is asked of
the policy, which stands for users, mount options, open files and all else that makes a call
fail; so a theorem over every policy covers every reason to refuse.  The number of symlinks
on a path is bounded (`maxSymlinks`), as the kernel bounds it, which makes `walk` total.
`Walks` is the same as a relation, for inductions over a walk.
-/

namespace Hiper

open Lib

/-! ### Files -/

/-- What kind of file it is; a symlink has the components of where it leads.  The kinds are
those of `st_mode`. -/
inductive FileType
  | fifo
  | chr
  | dir
  | blk
  | reg
  | lnk (absolute : Bool) (target : List Bytes)
  | sock
  deriving DecidableEq, Repr

/-- `S_IFIFO`, `S_IFCHR`, `S_IFDIR`, `S_IFBLK`, `S_IFREG`, `S_IFLNK` and `S_IFSOCK`.  In the
bits of `S_IFMT`. -/
def FileType.bits : FileType → BitVec 32
  | .fifo => 0x1000#32
  | .chr => 0x2000#32
  | .dir => 0x4000#32
  | .blk => 0x6000#32
  | .reg => 0x8000#32
  | .lnk _ _ => 0xa000#32
  | .sock => 0xc000#32

/-- `S_IFDIR`.  The one bit that `FSUtil` tests for. -/
def sIfdir : BitVec 32 := 0x4000#32

/-- What `lstat` says of a file.  The kind and the permissions. -/
structure Inode where
  type : FileType
  perm : BitVec 12
  deriving DecidableEq, Repr

/-- `st_mode`.  The kind in its bits, the permissions below. -/
def Inode.mode (i : Inode) : BitVec 32 := i.type.bits ||| i.perm.setWidth 32

/-- **The bit of a directory** is one of a socket and of a block device as well.
`st_mode & S_IFDIR` is therefore not whether something is a directory. -/
theorem Inode.mode_and_sIfdir (i : Inode) :
    i.mode &&& sIfdir = 0#32 ↔ i.type ≠ .dir ∧ i.type ≠ .sock ∧ i.type ≠ .blk := by
  obtain ⟨type, perm⟩ := i
  have hne : BitVec.twoPow 32 14 ≠ 0#32 := by decide
  have hbit : (⟨type, perm⟩ : Inode).mode.getLsbD 14 = type.bits.getLsbD 14 := by
    rw [Inode.mode, BitVec.getLsbD_or, BitVec.getLsbD_setWidth,
      BitVec.getLsbD_of_ge perm 14 (by decide), Bool.and_false, Bool.or_false]
  rw [show sIfdir = BitVec.twoPow 32 14 by decide, BitVec.and_twoPow, hbit]
  cases type <;> simp [FileType.bits, hne]

/-- `"."`.  It names the directory itself. -/
def dot : Bytes := [46]

/-- `".."`.  It names the directory above. -/
def dotdot : Bytes := [46, 46]

/-- A name that a file may have.  Not empty, without a slash, and not one of the two that every
directory has. -/
structure FileName (n : Bytes) : Prop where
  ne_nil : n ≠ []
  no_slash : 47 ∉ n
  no_nul : 0 ∉ n
  ne_dot : n ≠ dot
  ne_dotdot : n ≠ dotdot

/-- From the root.  The names that lead to it. -/
abbrev Path := List Bytes

/-- The files.  Only directories have something below them, and the names are those that files
may have. -/
structure FileSystem extends PathTable Bytes Inode fun i => i.type = .dir where
  named : ∀ p n, (toPathTable.get (p ++ [n])).isSome = true → FileName n

/-- A call.  The four that removing makes. -/
inductive Call
  | lstat
  | opendir
  | unlink
  | rmdir
  deriving DecidableEq, Repr

/-- Which calls fail on which files; the root is in use.  It may refuse any call on any file,
for a reason of its own. -/
structure Policy where
  denied : Call → Path → Bool
  busy : denied .rmdir [] = true

namespace FileSystem

/-! ### Paths -/

/-- A component that names no file of the directory: `""`, `"."` or `".."`.  They are followed
without looking anything up. -/
def IsDots (n : Bytes) : Prop := n = [] ∨ n = dot ∨ n = dotdot

/-- Whether a component is one of them is seen by comparing. -/
instance : DecidablePred IsDots := fun _ => instDecidableOr

/-- Where a component leads from a directory.  Above the root is the root. -/
def stepTo (cur : Path) (n : Bytes) : Path :=
  if n = [] ∨ n = dot then cur else if n = dotdot then cur.dropLast else cur ++ [n]

/-- From a directory, component by component; `follow` goes on behind a symlink.  A file that is
neither a directory nor a symlink cannot be walked through. -/
def walkIn (fs : FileSystem) (follow : Path → List Bytes → Option Path) :
    Path → List Bytes → Option Path
  | cur, [] => some cur
  | cur, n :: rest =>
    if IsDots n then fs.walkIn follow (stepTo cur n) rest
    else
      match fs.get (cur ++ [n]) with
      | none => none
      | some ⟨.dir, _⟩ => fs.walkIn follow (cur ++ [n]) rest
      | some ⟨.lnk absolute target, _⟩ => follow (if absolute then [] else cur) (target ++ rest)
      | some _ => none

/-- The directory that the components lead to, through at most so many symlinks.  A symlink is
followed from the directory it is in, or from the root. -/
def walk (fs : FileSystem) : ℕ → Path → List Bytes → Option Path
  | 0 => fs.walkIn fun _ _ => none
  | links + 1 => fs.walkIn (fs.walk links)

/-- Symlinks on one path.  The kernel allows forty. -/
def maxSymlinks : ℕ := 40

/-- The directory that a path leads to.  The last component is followed too. -/
def directory (fs : FileSystem) (p : List Bytes) : Option Path := fs.walk maxSymlinks [] p

/-- The file that a path leads to, which may be a symlink.  The last component is looked up and
not followed, when it is a name. -/
def resolve (fs : FileSystem) (p : List Bytes) : Option Path :=
  match p.getLast? with
  | none => some []
  | some n => (fs.directory p.dropLast).map (stepTo · n)

/-- The file whose name `rmdir` removes: not by `"."` or `".."`; trailing slashes do not count.
It must be a name in the end. -/
def target (fs : FileSystem) (p : List Bytes) : Option Path :=
  let p := p.rdropWhile (· = [])
  if p.getLast? = some dot ∨ p.getLast? = some dotdot then none else fs.resolve p

/-! ### Calls -/

/-- Without what is at a path and below it.  The directories above it stay. -/
def without (t : Path) (fs : FileSystem) : FileSystem where
  toPathTable := fs.toPathTable.without t
  named p n h := fs.named p n ((PathTable.without_within t _).isSome h)

/-- Without what is below a path.  The path itself stays. -/
def emptied (t : Path) (fs : FileSystem) : FileSystem where
  toPathTable := fs.toPathTable.emptied t
  named p n h := fs.named p n ((PathTable.emptied_within t _).isSome h)

/-- `lstat(path, &st)`, nothing for -1.  A symlink is looked at itself. -/
def lstat (pol : Policy) (fs : FileSystem) (path : List Bytes) : Option Inode :=
  (fs.resolve path).bind fun t => if pol.denied .lstat t then none else fs.get t

/-- `opendir(path)`, and what `readdir` returns then.  The two entries of every directory come
first, then the names below it. -/
def opendir (pol : Policy) (fs : FileSystem) (path : List Bytes) : Option (List Bytes) :=
  (fs.directory path).bind fun t =>
    if pol.denied .opendir t then none else some (dot :: dotdot :: fs.names t)

/-- `unlink(path)`, nothing for -1.  Directories are not removed by it, and `unlink` of the root
or of `"."` fails. -/
def unlink (pol : Policy) (fs : FileSystem) (path : List Bytes) : Option FileSystem :=
  if path.getLast?.any (IsDots ·) then none
  else (fs.resolve path).bind fun t =>
    match fs.get t with
    | none => none
    | some i => if i.type = .dir ∨ pol.denied .unlink t then none else some (fs.without t)

/-- `rmdir(path)`, nothing for -1.  The directory must be empty. -/
def rmdir (pol : Policy) (fs : FileSystem) (path : List Bytes) : Option FileSystem :=
  (fs.target path).bind fun t =>
    match fs.get t with
    | none => none
    | some i =>
      if i.type ≠ .dir ∨ fs.names t ≠ [] ∨ pol.denied .rmdir t then none else some (fs.without t)

/-! ### Walking -/

variable {fs fs₁ fs₂ : FileSystem} {links : ℕ} {cur t d : Path} {p q : List Bytes} {n : Bytes}
  {i : Inode}

/-- No components lead to where they start. -/
@[simp]
theorem walk_nil (links : ℕ) : fs.walk links cur [] = some cur := by
  cases links <;> rfl

/-- A component that names no file leads to the directory or the one above. -/
theorem walk_dots (hn : IsDots n) : fs.walk links cur (n :: p) = fs.walk links (stepTo cur n) p := by
  cases links <;> exact if_pos hn

/-- A component that names a file: a directory is entered, a symlink followed, and nothing else
leads on. -/
theorem walk_file (hn : ¬IsDots n) (hi : fs.get (cur ++ [n]) = some i) :
    fs.walk links cur (n :: p) =
      match i.type with
      | .dir => fs.walk links (cur ++ [n]) p
      | .lnk absolute target =>
        match links with
        | 0 => none
        | links + 1 => fs.walk links (if absolute then [] else cur) (target ++ p)
      | _ => none := by
  obtain ⟨type, perm⟩ := i
  cases links <;> (rw [walk, walkIn, if_neg hn, hi]; cases type <;> rfl)

/-- A component that names nothing leads nowhere. -/
theorem walk_none (hn : ¬IsDots n) (hi : fs.get (cur ++ [n]) = none) :
    fs.walk links cur (n :: p) = none := by
  cases links <;> rw [walk, walkIn, if_neg hn, hi]

/-- A directory.  Something is there, of that kind. -/
def IsDir (fs : FileSystem) (t : Path) : Prop := ∃ i, fs.get t = some i ∧ i.type = .dir

/-- How a walk goes.  One rule for each way to take a component. -/
inductive Walks (fs : FileSystem) : ℕ → Path → List Bytes → Path → Prop
  | nil (links : ℕ) (cur : Path) : Walks fs links cur [] cur
  | dots {links : ℕ} {cur t : Path} {n : Bytes} {p : List Bytes} :
      IsDots n → Walks fs links (stepTo cur n) p t → Walks fs links cur (n :: p) t
  | dir {links : ℕ} {cur t : Path} {n : Bytes} {p : List Bytes} :
      ¬IsDots n → fs.IsDir (cur ++ [n]) → Walks fs links (cur ++ [n]) p t →
      Walks fs links cur (n :: p) t
  | lnk {links : ℕ} {cur t : Path} {n : Bytes} {p : List Bytes} {absolute : Bool}
      {target : List Bytes} {perm : BitVec 12} :
      ¬IsDots n → fs.get (cur ++ [n]) = some ⟨.lnk absolute target, perm⟩ →
      Walks fs links (if absolute then [] else cur) (target ++ p) t →
      Walks fs (links + 1) cur (n :: p) t

/-- A walk that arrives goes by the rules. -/
theorem walks_of_walk (hwalk : fs.walk links cur p = some t) : Walks fs links cur p t := by
  -- the links that are left, and with as many the components that are
  induction links generalizing cur p with
  | zero =>
      induction p generalizing cur with
      | nil => exact Option.some.inj hwalk ▸ .nil 0 cur
      | cons n p ih =>
          by_cases hn : IsDots n
          · exact .dots hn (ih (walk_dots hn ▸ hwalk))
          · cases hi : fs.get (cur ++ [n]) with
            | none => exact absurd hwalk (by rw [walk_none hn hi]; simp)
            | some i =>
                rw [walk_file hn hi] at hwalk
                split at hwalk
                · exact .dir hn ⟨i, hi, ‹_›⟩ (ih hwalk)
                · cases hwalk
                · cases hwalk
  | succ links ihl =>
      induction p generalizing cur with
      | nil => exact Option.some.inj hwalk ▸ .nil _ cur
      | cons n p ih =>
          by_cases hn : IsDots n
          · exact .dots hn (ih (walk_dots hn ▸ hwalk))
          · cases hi : fs.get (cur ++ [n]) with
            | none => exact absurd hwalk (by rw [walk_none hn hi]; simp)
            | some i =>
                rw [walk_file hn hi] at hwalk
                split at hwalk
                · exact .dir hn ⟨i, hi, ‹_›⟩ (ih hwalk)
                · obtain ⟨type, perm⟩ := i
                  rename_i htype
                  cases htype
                  exact .lnk hn hi (ihl hwalk)
                · cases hwalk

/-- A component that names a directory leads into it. -/
theorem walk_dir (hn : ¬IsDots n) (hdir : fs.IsDir (cur ++ [n])) :
    fs.walk links cur (n :: p) = fs.walk links (cur ++ [n]) p := by
  obtain ⟨i, hi, htype⟩ := hdir
  rw [walk_file hn hi, htype]

/-- A walk arrives where the rules lead to. -/
theorem walk_iff : fs.walk links cur p = some t ↔ Walks fs links cur p t := by
  refine ⟨walks_of_walk, fun h => ?_⟩
  induction h with
  | nil links cur => exact walk_nil links
  | dots hn _ ih => rw [walk_dots hn, ih]
  | dir hn hdir _ ih => rw [walk_dir hn hdir, ih]
  | lnk hn hi _ ih => rw [walk_file hn hi, ← ih]

/-- What leads somewhere leads there with more files.  The induction is over the walk. -/
theorem walk_mono (h : PathTable.Within fs₁.toPathTable fs₂.toPathTable)
    (hwalk : fs₁.walk links cur p = some t) : fs₂.walk links cur p = some t := by
  rw [walk_iff] at hwalk ⊢
  induction hwalk with
  | nil links cur => exact .nil links cur
  | dots hn _ ih => exact .dots hn ih
  | dir hn hdir _ ih =>
      obtain ⟨i, hi, htype⟩ := hdir
      exact .dir hn ⟨i, h _ i hi, htype⟩ ih
  | lnk hn hi _ ih => exact .lnk hn (h _ _ hi) ih

/-- What is behind a directory goes on from there.  With as many symlinks as are left. -/
theorem walk_append (hwalk : fs.walk links cur p = some d) :
    ∃ rest, ∀ q, fs.walk links cur (p ++ q) = fs.walk rest d q := by
  rw [walk_iff] at hwalk
  induction hwalk with
  | nil links cur => exact ⟨links, fun q => rfl⟩
  | dots hn _ ih =>
      obtain ⟨rest, hrest⟩ := ih
      exact ⟨rest, fun q => (walk_dots hn).trans (hrest q)⟩
  | dir hn hdir _ ih =>
      obtain ⟨rest, hrest⟩ := ih
      exact ⟨rest, fun q => (walk_dir hn hdir).trans (hrest q)⟩
  | lnk hn hi _ ih =>
      obtain ⟨rest, hrest⟩ := ih
      refine ⟨rest, fun q => ?_⟩
      rw [← hrest, List.append_assoc, List.cons_append, walk_file hn hi]

/-- A component that names no file leads from a directory to a directory. -/
theorem isDir_stepTo (hcur : fs.IsDir cur) (hn : IsDots n) : fs.IsDir (stepTo cur n) := by
  unfold stepTo
  split_ifs with hdot hdotdot
  · exact hcur
  · obtain ⟨i, hi, -⟩ := hcur
    rcases List.eq_nil_or_concat' cur with rfl | ⟨before, last, rfl⟩
    · exact ⟨_, PathTable.get_nil _, fs.branch_root⟩
    · rw [List.dropLast_concat]
      exact PathTable.get_parent (Option.isSome_iff_exists.2 ⟨i, hi⟩)
  · unfold IsDots at hn
    tauto

/-- A walk from a directory ends in one. -/
theorem isDir_of_walk (hcur : fs.IsDir cur) (hwalk : fs.walk links cur p = some t) :
    fs.IsDir t := by
  rw [walk_iff] at hwalk
  induction hwalk with
  | nil links cur => exact hcur
  | dots hn _ ih => exact ih (isDir_stepTo hcur hn)
  | dir hn hdir _ ih => exact ih hdir
  | lnk hn hi _ ih =>
      refine ih ?_
      split_ifs
      · exact ⟨_, PathTable.get_nil _, fs.branch_root⟩
      · exact hcur

/-- The root is a directory. -/
theorem isDir_root (fs : FileSystem) : fs.IsDir [] := ⟨_, PathTable.get_nil _, fs.branch_root⟩

/-! ### Resolving -/

@[simp]
theorem resolve_nil : fs.resolve [] = some [] := rfl

/-- The last component is looked up in the directory of the others. -/
theorem resolve_concat (p : List Bytes) (n : Bytes) :
    fs.resolve (p ++ [n]) = (fs.directory p).map (stepTo · n) := by
  rw [resolve, List.getLast?_concat, List.dropLast_concat]

/-- A name leads below the directory. -/
theorem stepTo_name (hn : ¬IsDots n) : stepTo d n = d ++ [n] := by
  unfold IsDots at hn
  rw [stepTo, if_neg (by tauto), if_neg (by tauto)]

/-- A path that leads to a file leads there with more files. -/
theorem resolve_mono (h : PathTable.Within fs₁.toPathTable fs₂.toPathTable)
    (hres : fs₁.resolve p = some t) : fs₂.resolve p = some t := by
  rcases List.eq_nil_or_concat' p with rfl | ⟨p, n, rfl⟩
  · exact hres
  · rw [resolve_concat, Option.map_eq_some_iff] at hres ⊢
    obtain ⟨d, hd, rfl⟩ := hres
    exact ⟨d, walk_mono h hd, rfl⟩

/-- A path whose name can be removed has the same target with more files. -/
theorem target_mono (h : PathTable.Within fs₁.toPathTable fs₂.toPathTable)
    (ht : fs₁.target p = some t) : fs₂.target p = some t := by
  unfold target at ht ⊢
  dsimp only at ht ⊢
  split_ifs at ht ⊢
  exact resolve_mono h ht

/-- A path that leads to a directory is followed to it.  It is not a symlink. -/
theorem directory_of_resolve (hres : fs.resolve p = some t) (hdir : fs.IsDir t) :
    fs.directory p = some t := by
  rcases List.eq_nil_or_concat' p with rfl | ⟨p, n, rfl⟩
  · rw [← hres, resolve_nil, directory, walk_nil]
  · rw [resolve_concat, Option.map_eq_some_iff] at hres
    obtain ⟨d, hd, rfl⟩ := hres
    obtain ⟨rest, hrest⟩ := walk_append hd
    rw [directory, hrest]
    by_cases hn : IsDots n
    · rw [walk_dots hn, walk_nil]
    · rw [stepTo_name hn] at hdir ⊢
      rw [walk_dir hn hdir, walk_nil]

/-- What is neither a directory nor a symlink cannot be opened as one.  So `opendir` fails on
it. -/
theorem directory_eq_none (hres : fs.resolve p = some t) (hi : fs.get t = some i)
    (hdir : i.type ≠ .dir) (hlnk : ∀ absolute target, i.type ≠ .lnk absolute target) :
    fs.directory p = none := by
  rcases List.eq_nil_or_concat' p with rfl | ⟨p, n, rfl⟩
  · obtain rfl := Option.some.inj hres
    obtain ⟨j, hj, htype⟩ := fs.isDir_root
    exact absurd htype (Option.some.inj (hi.symm.trans hj) ▸ hdir)
  · rw [resolve_concat, Option.map_eq_some_iff] at hres
    obtain ⟨d, hd, rfl⟩ := hres
    obtain ⟨rest, hrest⟩ := walk_append hd
    rw [directory, hrest]
    by_cases hn : IsDots n
    · obtain ⟨j, hj, htype⟩ := isDir_stepTo (isDir_of_walk fs.isDir_root hd) hn
      exact absurd htype (Option.some.inj (hi.symm.trans hj) ▸ hdir)
    · rw [stepTo_name hn] at hi
      rw [walk_file hn hi]
      split
      · exact absurd ‹_› hdir
      · exact absurd ‹_› (hlnk _ _)
      · rfl

/-- A path that ends in a name has what it leads to as its target. -/
theorem target_concat (hn : ¬IsDots n) : fs.target (p ++ [n]) = fs.resolve (p ++ [n]) := by
  unfold IsDots at hn
  rw [target, List.rdropWhile_concat_neg _ _ _ (by simp; tauto), List.getLast?_concat, if_neg (by simp; tauto)]

/-- Where the target is a directory, that is where the path leads.  Dots and trailing slashes
aside. -/
theorem directory_of_target (ht : fs.target p = some t) (hdir : fs.IsDir t) :
    fs.directory p = some t := by
  induction p using List.reverseRecOn with
  | nil => exact directory_of_resolve (Option.some.inj ht ▸ rfl) hdir
  | append_singleton p n ih =>
      by_cases hn : n = []
      · subst hn
        rw [target, List.rdropWhile_concat_pos _ _ _ (by simp)] at ht
        obtain ⟨rest, hrest⟩ := walk_append (ih ht)
        rw [directory, hrest, walk_dots (.inl rfl), walk_nil]
        rfl
      · refine directory_of_resolve ?_ hdir
        rw [target, List.rdropWhile_concat_neg _ _ _ (by simpa using hn)] at ht
        split_ifs at ht
        exact ht

/-! ### What calls do -/

variable {pol : Policy}

/-- What is at a path once another is taken away. -/
theorem get_without (t p : Path) (fs : FileSystem) :
    (fs.without t).get p = if p ≠ [] ∧ t <+: p then none else fs.get p :=
  PathTable.get_without t p _

/-- What is at a path once another is emptied. -/
theorem get_emptied (t p : Path) (fs : FileSystem) :
    (fs.emptied t).get p = if t <+: p ∧ p ≠ t then none else fs.get p :=
  PathTable.get_emptied t p _

/-- `lstat` finds what the path leads to, unless it is denied. -/
theorem lstat_eq_some :
    fs.lstat pol p = some i ↔
      ∃ t, fs.resolve p = some t ∧ pol.denied .lstat t = false ∧ fs.get t = some i := by
  simp only [lstat, Option.bind_eq_some_iff, Option.ite_none_left_eq_some, Bool.not_eq_true]

/-- What is no directory is not the root. -/
theorem ne_nil_of_not_dir (hi : fs.get t = some i) (hdir : i.type ≠ .dir) : t ≠ [] := by
  rintro rfl
  obtain ⟨j, hj, htype⟩ := fs.isDir_root
  exact hdir (Option.some.inj (hi.symm.trans hj) ▸ htype)

/-- What is no directory has nothing below it.  Only directories have files in them. -/
theorem names_eq_nil (hi : fs.get t = some i) (hdir : i.type ≠ .dir) : fs.names t = [] := by
  refine List.eq_nil_iff_forall_not_mem.2 fun n hn => ?_
  obtain ⟨j, hj, htype⟩ := PathTable.get_parent (PathTable.mem_names.1 hn)
  exact hdir (Option.some.inj (hi.symm.trans hj) ▸ htype)

/-- A path to what is no directory ends in its name.  Dots lead to directories only. -/
theorem exists_name (hres : fs.resolve p = some t) (hi : fs.get t = some i)
    (hdir : i.type ≠ .dir) : ∃ q n, p = q ++ [n] ∧ ¬IsDots n := by
  have hnot : ¬fs.IsDir t := by
    rintro ⟨j, hj, htype⟩
    exact hdir (Option.some.inj (hi.symm.trans hj) ▸ htype)
  rcases List.eq_nil_or_concat' p with rfl | ⟨q, n, rfl⟩
  · exact absurd (Option.some.inj hres ▸ fs.isDir_root) hnot
  · refine ⟨q, n, rfl, fun hn => hnot ?_⟩
    rw [resolve_concat, Option.map_eq_some_iff] at hres
    obtain ⟨d, hd, rfl⟩ := hres
    exact isDir_stepTo (isDir_of_walk fs.isDir_root hd) hn

/-- `unlink` of what is no directory takes it away, unless it is denied. -/
theorem unlink_eq (hres : fs.resolve p = some t) (hi : fs.get t = some i) (hdir : i.type ≠ .dir) :
    fs.unlink pol p = if pol.denied .unlink t then none else some (fs.without t) := by
  obtain ⟨q, n, rfl, hn⟩ := exists_name hres hi hdir
  simp [unlink, hn, hres, hi, hdir]

/-- `opendir` gives the two dots and the names of the directory, unless it is denied. -/
theorem opendir_eq_some {names : List Bytes} :
    fs.opendir pol p = some names ↔
      ∃ t, fs.directory p = some t ∧ pol.denied .opendir t = false ∧
        dot :: dotdot :: fs.names t = names := by
  simp only [opendir, Option.bind_eq_some_iff, Option.ite_none_left_eq_some, Bool.not_eq_true,
    Option.some.injEq]

/-- `rmdir` takes away an empty directory, unless it is denied. -/
theorem rmdir_eq_some :
    fs₁.rmdir pol p = some fs₂ ↔
      ∃ t, fs₁.target p = some t ∧ fs₁.IsDir t ∧ fs₁.names t = [] ∧
        pol.denied .rmdir t = false ∧ fs₁.without t = fs₂ := by
  rw [rmdir, Option.bind_eq_some_iff]
  refine exists_congr fun t => and_congr_right fun _ => ?_
  cases hi : fs₁.get t with
  | none => simp [IsDir, hi]
  | some i =>
      have hdir : fs₁.IsDir t ↔ i.type = .dir := by simp [IsDir, hi]
      simp only [hdir, Option.ite_none_left_eq_some, not_or, not_not, Bool.not_eq_true,
        Option.some.injEq, and_assoc]

end FileSystem

end Hiper
