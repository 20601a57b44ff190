import Hiper.FSUtil.Kernel

/-!
# Recursive removal

`FSUtil::Rm` unlinks what is not a directory by the bit `S_IFDIR`, and of a directory
removes the entries one after the other, then the directory.  What a child returns is
overwritten by the next, but a child that is left makes `rmdir` fail: `Rm` returns true if
and only if nothing is left (`rm_spec`).

The bit is one of sockets and of block devices as well, which are opened as directories.
Where there are none of these `Rm` removes the tree, and nowhere else unless a removal is
refused (`rm_correct_iff`).

The functions are `util.cc:210` (`Unlink`) and `util.cc:218` (`Rm`).  The recursion of the
source has no bound, and here it has one that is never reached: as many calls within calls
as the paths below the tree are long are enough (`rm_isSome`).  While a directory is gone
over, its entries go away, and paths that led through a symlink to one of them no longer
lead anywhere; that is why the directory that was opened is compared with the one that its
path leads to when it is removed (`Refused`).
-/

namespace Hiper

open Lib PathTable

namespace FSUtil

/-- `Unlink(filename, exist)`.  Only when `exist` is false is the file looked at first
(`util.cc:210`). -/
def unlink (pol : Policy) (filename : List Bytes) (exist : Bool) (fs : FileSystem) :
    Bool × FileSystem :=
  if !exist && (fs.lstat pol filename).isNone then (true, fs)
  else
    match fs.unlink pol filename with
    | some fs => (true, fs)
    | none => (false, fs)

/-- The loop over `readdir(dir)`; `rm` is the call for an entry.  What an entry returns is
overwritten by the next (`util.cc:233-240`). -/
def rmEntries (rm : List Bytes → FileSystem → Option (Bool × FileSystem)) (path : List Bytes) :
    List Bytes → Bool → FileSystem → Option (Bool × FileSystem)
  | [], ret, fs => some (ret, fs)
  | n :: names, ret, fs =>
    if n = dot ∨ n = dotdot then rmEntries rm path names ret fs
    else (rm (path ++ [n]) fs).bind fun r => rmEntries rm path names r.1 r.2

/-- `Rm(path)`, nothing when it calls itself more often within itself than `fuel` says.  It
looks at the bit `S_IFDIR`, unlinks or opens, goes over the entries and removes the directory
(`util.cc:218`). -/
def rm (pol : Policy) : ℕ → List Bytes → FileSystem → Option (Bool × FileSystem)
  | 0, _, _ => none
  | fuel + 1, path, fs =>
    match fs.lstat pol path with
    | none => some (true, fs)
    | some st =>
      if st.mode &&& sIfdir = 0#32 then some (unlink pol path false fs)
      else
        match fs.opendir pol path with
        | none => some (false, fs)
        | some names =>
          (rmEntries (rm pol fuel) path names true fs).map fun r =>
            match r.2.rmdir pol path with
            | some fs => (r.1, fs)
            | none => (false, r.2)

/-! ### What is removed -/

/-- The call that removes the file is not refused.  `rmdir` for a directory and `unlink` for
anything else. -/
def Removable (pol : Policy) (q : Path) (i : Inode) : Prop :=
  if i.type = .dir then pol.denied .rmdir q = false else pol.denied .unlink q = false

/-- `Rm` gets to that call: the file is found, is no socket and no block device, and can be
opened if it is a directory.  A symlink to a directory is unlinked itself, since `lstat` does
not follow it. -/
structure Handled (pol : Policy) (q : Path) (i : Inode) : Prop where
  found : pol.denied .lstat q = false
  not_sock : i.type ≠ .sock
  not_blk : i.type ≠ .blk
  opened : i.type = .dir → pol.denied .opendir q = false

/-- Files of a region are gone, each by a call that was made and not refused.  What is left is
as it was. -/
structure Cleared (pol : Policy) (region : Path → Prop) (fs fs' : FileSystem) : Prop where
  within : Within fs'.toPathTable fs.toPathTable
  frame : ∀ q i, fs.get q = some i → ¬region q → fs'.get q = some i
  handled : ∀ q i, fs.get q = some i → fs'.get q = none → Removable pol q i ∧ Handled pol q i

/-- A file that is strictly below.  The file at the path is not below itself. -/
def Below (t q : Path) : Prop := t <+: q ∧ q ≠ t

variable {pol : Policy} {region region' : Path → Prop} {fs fs₀ fs₁ fs₂ fs' : FileSystem}
  {path : List Bytes} {t q : Path} {i st : Inode} {n : Bytes} {b : Bool} {fuel : ℕ}

namespace Cleared

/-- Nothing done, nothing gone. -/
theorem refl (fs : FileSystem) : Cleared pol region fs fs where
  within := Within.refl _
  frame _ _ hi _ := hi
  handled _ _ hi hnone := by
    rw [hi] at hnone
    cases hnone

/-- Two times of clearing, one after the other. -/
theorem trans (h₁ : Cleared pol region fs fs₁) (h₂ : Cleared pol region fs₁ fs₂) :
    Cleared pol region fs fs₂ where
  within := h₂.within.trans h₁.within
  frame q i hi hq := h₂.frame q i (h₁.frame q i hi hq) hq
  handled q i hi hnone := by
    cases hmid : fs₁.get q with
    | none => exact h₁.handled q i hi hmid
    | some j =>
        obtain rfl : j = i := Option.some.inj ((h₁.within q j hmid).symm.trans hi)
        exact h₂.handled q j hmid hnone

/-- Clearing in a region is clearing in a larger one. -/
theorem mono (h : Cleared pol region fs fs') (hregion : ∀ q, region q → region' q) :
    Cleared pol region' fs fs' where
  within := h.within
  frame q i hi hq := h.frame q i hi fun hr => hq (hregion q hr)
  handled := h.handled

end Cleared

/-- One file that has nothing below it.  It is what one `unlink` or `rmdir` does. -/
theorem cleared_without (ht : fs.get t = some st) (hnames : fs.names t = [])
    (hremovable : Removable pol t st) (hhandled : Handled pol t st) :
    Cleared pol (t <+: ·) fs (fs.without t) where
  within := without_within t _
  frame q i hi hq := by
    rw [FileSystem.get_without, if_neg fun h => hq h.2, hi]
  handled q i hi hnone := by
    rw [FileSystem.get_without, hi] at hnone
    split_ifs at hnone with hq
    by_cases hqt : q = t
    · subst hqt
      obtain rfl := Option.some.inj (hi.symm.trans ht)
      exact ⟨hremovable, hhandled⟩
    · obtain ⟨n, hn, -⟩ := exists_child hq.2 hqt (Option.isSome_iff_exists.2 ⟨i, hi⟩)
      rw [← mem_names, hnames] at hn
      cases hn

/-- `lstat` finds the file at the path.  The path leads to it, and the call is not denied. -/
structure Found (pol : Policy) (fs : FileSystem) (path : List Bytes) (t : Path) (st : Inode) :
    Prop where
  resolve : fs.resolve path = some t
  found : pol.denied .lstat t = false
  there : fs.get t = some st

/-- It is a directory, and opened.  The bit is set and `opendir` succeeds. -/
structure Opened (pol : Policy) (fs : FileSystem) (path : List Bytes) (t : Path) (st : Inode) :
    Prop extends Found pol fs path t st where
  type : st.type = .dir
  directory : fs.directory path = some t
  opened : pol.denied .opendir t = false

/-- `lstat` answers for the file that is found. -/
theorem lstat_eq_some : fs.lstat pol path = some st ↔ ∃ t, Found pol fs path t st :=
  FileSystem.lstat_eq_some.trans
    (exists_congr fun _ => ⟨fun h => ⟨h.1, h.2.1, h.2.2⟩, fun h => ⟨h.1, h.2, h.3⟩⟩)

/-- A path leads to one file. -/
theorem Found.eq (hst : Found pol fs path t st) {u : Path} (hu : fs.resolve path = some u) :
    u = t :=
  Option.some.inj (hu.symm.trans hst.resolve)

/-- What is opened is the directory, if the bit is set.  A symlink has the bit off and is not
opened. -/
theorem Found.isDir_of_directory (hst : Found pol fs path t st)
    (hmode : st.mode &&& sIfdir ≠ 0#32) {u : Path} (hu : fs.directory path = some u) :
    st.type = .dir ∧ u = t := by
  have htype : st.type = .dir := by
    by_contra hdir
    rw [FileSystem.directory_eq_none hst.resolve hst.there hdir] at hu
    · cases hu
    · intro absolute target hlnk
      exact hmode (st.mode_and_sIfdir.2 (by simp [hlnk]))
  exact ⟨htype, Option.some.inj (hu.symm.trans
    (FileSystem.directory_of_resolve hst.resolve ⟨st, hst.there, htype⟩))⟩

/-- A file that is handled and has the bit set is a directory that can be opened. -/
theorem Found.opened (hst : Found pol fs path t st) (hmode : st.mode &&& sIfdir ≠ 0#32)
    (hhandled : Handled pol t st) : Opened pol fs path t st := by
  have htype : st.type = .dir := by
    by_contra hdir
    exact hmode (st.mode_and_sIfdir.2 ⟨hdir, hhandled.not_sock, hhandled.not_blk⟩)
  exact ⟨hst, htype, FileSystem.directory_of_resolve hst.resolve ⟨st, hst.there, htype⟩,
    hhandled.opened htype⟩

/-- An opened directory gives its two dots and its names. -/
theorem Opened.opendir (h : Opened pol fs path t st) :
    fs.opendir pol path = some (dot :: dotdot :: fs.names t) :=
  FileSystem.opendir_eq_some.2 ⟨t, h.directory, h.opened, rfl⟩

/-- What `Rm` has done, at the file that its path leads to: it returns true if and only if the
file is gone.  Whatever else is gone is below it. -/
structure Outcome (pol : Policy) (fs : FileSystem) (path : List Bytes) (t : Path) (b : Bool)
    (fs' : FileSystem) : Prop where
  cleared : Cleared pol (t <+: ·) fs fs'
  gone_iff : b = true ↔ fs'.get t = none
  leads : b = true → (fs.emptied t).target path = some t

/-- Nothing has been done.  The file is still there and false is returned. -/
theorem Outcome.refl (hst : Found pol fs path t st) : Outcome pol fs path t false fs :=
  ⟨.refl fs, by simp [hst.there], fun h => absurd h Bool.false_ne_true⟩

/-- `Rm` at a file, or where it finds none.  Where it finds none, it returns true and does
nothing. -/
def Meets (pol : Policy) (fs : FileSystem) (path : List Bytes) (b : Bool) (fs' : FileSystem) :
    Prop :=
  (fs.lstat pol path = none ∧ b = true ∧ fs' = fs) ∨
    ∃ t st, Found pol fs path t st ∧ Outcome pol fs path t b fs'

/-- A file that is unlinked.  It is gone when the call is not denied. -/
theorem unlink_outcome (hst : Found pol fs path t st) (hmode : st.mode &&& sIfdir = 0#32) :
    Outcome pol fs path t (unlink pol path false fs).1 (unlink pol path false fs).2 := by
  obtain ⟨hdir, hsock, hblk⟩ := st.mode_and_sIfdir.1 hmode
  have hres := hst.resolve
  have ht := hst.there
  rw [unlink, lstat_eq_some.2 ⟨t, hst⟩, FileSystem.unlink_eq hres ht hdir]
  by_cases hdenied : pol.denied .unlink t = true
  · simp only [hdenied, if_true]
    exact .refl hst
  · have hnames := FileSystem.names_eq_nil ht hdir
    simp only [hdenied]
    refine ⟨cleared_without ht hnames ?_ ⟨hst.found, hsock, hblk, fun h => absurd h hdir⟩, ?_, ?_⟩
    · rw [Removable, if_neg hdir]
      simpa using hdenied
    · have hne := FileSystem.ne_nil_of_not_dir ht hdir
      simp [FileSystem.get_without, hne]
    · rintro -
      obtain ⟨p, n, rfl, hn⟩ := FileSystem.exists_name hres ht hdir
      rw [← FileSystem.target_concat hn] at hres
      exact FileSystem.target_mono (within_emptied (Within.refl _) hnames) hres

/-! ### The loop -/

/-- An entry's path leads below the directory, if anywhere.  Whatever entries are gone already. -/
theorem resolve_entry (hn : ¬FileSystem.IsDots n) (hdir : fs₀.directory path = some t)
    (hwithin : Within fs.toPathTable fs₀.toPathTable) {u : Path}
    (hu : fs.resolve (path ++ [n]) = some u) : u = t ++ [n] := by
  rw [FileSystem.resolve_concat, Option.map_eq_some_iff] at hu
  obtain ⟨d, hd, rfl⟩ := hu
  rw [FileSystem.stepTo_name hn]
  obtain rfl := Option.some.inj ((FileSystem.walk_mono hwithin hd).symm.trans hdir)
  rfl

/-- The names that `readdir` returns, but for `"."` and `".."`, are those of entries.  So the
loop sees every entry. -/
theorem mem_readdir (hdots : ¬(n = dot ∨ n = dotdot)) :
    n ∈ dot :: dotdot :: fs.names t ↔ (fs.get (t ++ [n])).isSome = true := by
  rw [← mem_names, List.mem_cons, List.mem_cons, ← or_assoc, or_iff_right hdots]

/-- What is in a directory has a name. -/
theorem not_isDots (h : (fs.get (t ++ [n])).isSome = true) : ¬FileSystem.IsDots n := by
  obtain ⟨hnil, -, -, hdot, hdotdot⟩ := fs.named t n h
  simp [FileSystem.IsDots, hnil, hdot, hdotdot]

/-- What one entry does to the files of the directory.  A result of false says that it is still
there. -/
theorem entry_cleared (hn : ¬FileSystem.IsDots n) (hdir : fs₀.directory path = some t)
    (hwithin : Within fs.toPathTable fs₀.toPathTable)
    (hmeets : Meets pol fs (path ++ [n]) b fs') :
    Cleared pol (Below t) fs fs' ∧ (b = false → (fs'.get (t ++ [n])).isSome = true) := by
  rcases hmeets with ⟨-, rfl, rfl⟩ | ⟨u, st, hst, hout⟩
  · exact ⟨.refl fs', fun h => absurd h.symm Bool.false_ne_true⟩
  · obtain rfl := resolve_entry hn hdir hwithin hst.resolve
    refine ⟨hout.cleared.mono ?_, fun hb => ?_⟩
    · rintro q ⟨r, rfl⟩
      exact ⟨⟨n :: r, by simp⟩, by simp⟩
    · rw [← Option.ne_none_iff_isSome, Ne, ← hout.gone_iff, hb]
      exact Bool.false_ne_true

/-- The loop: where it returns false, and has not before, there is something left.  The
induction is over the names. -/
theorem rmEntries_spec {rm' : List Bytes → FileSystem → Option (Bool × FileSystem)}
    (hrm : ∀ path fs b fs', rm' path fs = some (b, fs') → Meets pol fs path b fs')
    (hdir : fs₀.directory path = some t) {names : List Bytes} (hnames : [] ∉ names) {ret : Bool}
    (hwithin : Within fs.toPathTable fs₀.toPathTable)
    (h : rmEntries rm' path names ret fs = some (b, fs')) :
    Cleared pol (Below t) fs fs' ∧
      (b = false → (ret = false ∧ fs' = fs) ∨ ∃ n, (fs'.get (t ++ [n])).isSome = true) := by
  induction names generalizing ret fs with
  | nil =>
      obtain ⟨rfl, rfl⟩ := Prod.mk.inj (Option.some.inj h)
      exact ⟨.refl fs, fun hb => .inl ⟨hb, rfl⟩⟩
  | cons n names ih =>
      rw [List.mem_cons, not_or] at hnames
      rw [rmEntries] at h
      split_ifs at h with hdots
      · exact ih hnames.2 hwithin h
      · rw [Option.bind_eq_some_iff] at h
        obtain ⟨⟨b₁, fs₁⟩, hchild, hrest⟩ := h
        have hn : ¬FileSystem.IsDots n := by
          rintro (rfl | hn)
          · exact hnames.1 rfl
          · exact hdots hn
        obtain ⟨hcleared₁, hleft⟩ := entry_cleared hn hdir hwithin (hrm _ _ _ _ hchild)
        obtain ⟨hcleared₂, hret⟩ := ih hnames.2 (hcleared₁.within.trans hwithin) hrest
        refine ⟨hcleared₁.trans hcleared₂, fun hb => ?_⟩
        rcases hret hb with ⟨hb₁, rfl⟩ | hleft₂
        · exact .inr ⟨n, hleft hb₁⟩
        · exact .inr hleft₂

/-! ### The call -/

/-- The names that `readdir` returns are no empty ones.  Two of them are the dots and the others
are names of files. -/
theorem nil_notMem_readdir (fs : FileSystem) (t : Path) : [] ∉ dot :: dotdot :: fs.names t := by
  simp only [List.mem_cons, not_or]
  exact ⟨by decide, by decide, fun h => (fs.named t [] (mem_names.1 h)).ne_nil rfl⟩

/-- A directory that is removed when its entries have been.  It could be removed, so nothing was
left in it. -/
theorem rmdir_outcome (hdir : Opened pol fs path t st) (hcleared : Cleared pol (Below t) fs fs₁)
    (h : fs₁.rmdir pol path = some fs₂) :
    fs₁.names t = [] ∧ Outcome pol fs path t true fs₂ := by
  obtain ⟨u, htarget, hu, hnames, hdenied, rfl⟩ := FileSystem.rmdir_eq_some.1 h
  obtain rfl : u = t := Option.some.inj ((FileSystem.walk_mono hcleared.within
    (FileSystem.directory_of_target htarget hu)).symm.trans hdir.directory)
  have hthere : fs₁.get u = some st := hcleared.frame u st hdir.there fun hbelow => hbelow.2 rfl
  have hremovable : Removable pol u st := by rwa [Removable, if_pos hdir.type]
  have hhandled : Handled pol u st :=
    ⟨hdir.found, by simp [hdir.type], by simp [hdir.type], fun _ => hdir.opened⟩
  have hne : u ≠ [] := by
    rintro rfl
    exact absurd pol.busy (by simp [hdenied])
  refine ⟨hnames, (hcleared.mono fun q hq => hq.1).trans
    (cleared_without hthere hnames hremovable hhandled), ?_, fun _ => ?_⟩
  · simp [FileSystem.get_without, hne]
  · exact FileSystem.target_mono (within_emptied hcleared.within hnames) htarget

/-- How a call goes.  One rule for each way out of `Rm`. -/
inductive Goes (pol : Policy) (fuel : ℕ) (path : List Bytes) (fs : FileSystem) :
    Bool → FileSystem → Prop
  | absent : fs.lstat pol path = none → Goes pol fuel path fs true fs
  | unlinked {t : Path} {st : Inode} : Found pol fs path t st → st.mode &&& sIfdir = 0#32 →
      Goes pol fuel path fs (unlink pol path false fs).1 (unlink pol path false fs).2
  | closed {t : Path} {st : Inode} : Found pol fs path t st → st.mode &&& sIfdir ≠ 0#32 →
      fs.opendir pol path = none → Goes pol fuel path fs false fs
  | left {t : Path} {st : Inode} {ret : Bool} {fs₁ : FileSystem} : Opened pol fs path t st →
      rmEntries (rm pol fuel) path (dot :: dotdot :: fs.names t) true fs = some (ret, fs₁) →
      fs₁.rmdir pol path = none → Goes pol fuel path fs false fs₁
  | removed {t : Path} {st : Inode} {ret : Bool} {fs₁ fs₂ : FileSystem} : Opened pol fs path t st →
      rmEntries (rm pol fuel) path (dot :: dotdot :: fs.names t) true fs = some (ret, fs₁) →
      fs₁.rmdir pol path = some fs₂ → Goes pol fuel path fs ret fs₂

/-- A call goes by one of the rules. -/
theorem rm_goes (h : rm pol (fuel + 1) path fs = some (b, fs')) : Goes pol fuel path fs b fs' := by
  rw [rm] at h
  cases hlstat : fs.lstat pol path with
  | none =>
      rw [hlstat] at h
      obtain ⟨rfl, rfl⟩ := Prod.mk.inj (Option.some.inj h)
      exact .absent hlstat
  | some st =>
      obtain ⟨t, hst⟩ := lstat_eq_some.1 hlstat
      rw [hlstat] at h
      dsimp only at h
      split_ifs at h with hmode
      · have hgoes : Goes pol fuel path fs _ _ := .unlinked hst hmode
        rwa [Option.some.inj h] at hgoes
      · cases hopen : fs.opendir pol path with
        | none =>
            rw [hopen] at h
            obtain ⟨rfl, rfl⟩ := Prod.mk.inj (Option.some.inj h)
            exact .closed hst hmode hopen
        | some names =>
            rw [hopen] at h
            obtain ⟨u, hu, hopened, rfl⟩ := FileSystem.opendir_eq_some.1 hopen
            obtain ⟨htype, rfl⟩ := hst.isDir_of_directory hmode hu
            have hdir : Opened pol fs path u st := ⟨hst, htype, hu, hopened⟩
            obtain ⟨⟨ret, fs₁⟩, hloop, hrmdir⟩ := Option.map_eq_some_iff.1 h
            cases hrm : fs₁.rmdir pol path with
            | none =>
                rw [hrm] at hrmdir
                obtain ⟨rfl, rfl⟩ := Prod.mk.inj hrmdir
                exact .left hdir hloop hrm
            | some fs₂ =>
                rw [hrm] at hrmdir
                obtain ⟨rfl, rfl⟩ := Prod.mk.inj hrmdir
                exact .removed hdir hloop hrm

/-- **What `Rm` does.**  Files below its path are gone, each by a call that was not refused, and
it returns true if and only if the file at its path is.  The induction is over the calls within
calls. -/
theorem rm_spec (h : rm pol fuel path fs = some (b, fs')) : Meets pol fs path b fs' := by
  induction fuel generalizing path fs b fs' with
  | zero => cases h
  | succ fuel ih =>
      cases rm_goes h with
      | absent hlstat => exact .inl ⟨hlstat, rfl, rfl⟩
      | unlinked hst hmode => exact .inr ⟨_, _, hst, unlink_outcome hst hmode⟩
      | closed hst hmode hopen => exact .inr ⟨_, _, hst, .refl hst⟩
      | left hdir hloop hrmdir =>
          obtain ⟨hcleared, -⟩ := rmEntries_spec (fun _ _ _ _ => ih) hdir.directory
            (nil_notMem_readdir _ _) (Within.refl _) hloop
          have hthere := hcleared.frame _ _ hdir.there fun hbelow => hbelow.2 rfl
          exact .inr ⟨_, _, hdir.toFound, hcleared.mono fun q hq => hq.1, by simp [hthere],
            fun h => absurd h Bool.false_ne_true⟩
      | removed hdir hloop hrmdir =>
          obtain ⟨hcleared, hleft⟩ := rmEntries_spec (fun _ _ _ _ => ih) hdir.directory
            (nil_notMem_readdir _ _) (Within.refl _) hloop
          obtain ⟨hnames, hout⟩ := rmdir_outcome hdir hcleared hrmdir
          -- had the last entry been left, the directory would not be empty
          have hret : b = true := by
            by_contra hfalse
            rcases hleft (Bool.not_eq_true _ ▸ hfalse) with ⟨h, -⟩ | ⟨n, hn⟩
            · cases h
            · rw [← mem_names, hnames] at hn
              cases hn
          exact .inr ⟨_, _, hdir.toFound, hret ▸ hout⟩

/-- The loop, as what a call does.  The files that are gone are below the directory. -/
theorem rmEntries_cleared (hdir : fs₀.directory path = some t) {names : List Bytes}
    (hnames : [] ∉ names) {ret : Bool} (hwithin : Within fs.toPathTable fs₀.toPathTable)
    (h : rmEntries (rm pol fuel) path names ret fs = some (b, fs')) :
    Cleared pol (Below t) fs fs' :=
  (rmEntries_spec (fun _ _ _ _ => rm_spec) hdir hnames hwithin h).1

/-! ### Calls within calls -/

/-- The loop ends when the calls for its entries do. -/
theorem rmEntries_isSome {rm' : List Bytes → FileSystem → Option (Bool × FileSystem)}
    (Inv : FileSystem → Prop) {names : List Bytes}
    (hrm : ∀ n ∈ names, ¬(n = dot ∨ n = dotdot) → ∀ fs, Inv fs →
      ∃ b fs', rm' (path ++ [n]) fs = some (b, fs') ∧ Inv fs') (ret : Bool) (hfs : Inv fs) :
    (rmEntries rm' path names ret fs).isSome = true := by
  induction names generalizing ret fs with
  | nil => rfl
  | cons n names ih =>
      have htail := fun m hm => hrm m (List.mem_cons_of_mem n hm)
      rw [rmEntries]
      split_ifs with hdots
      · exact ih htail ret hfs
      · obtain ⟨b, fs', hchild, hfs'⟩ := hrm n List.mem_cons_self hdots fs hfs
        rw [hchild]
        exact ih htail b hfs'

/-- As many calls within calls as there are names behind each other are enough.  The recursion
goes down one name at a time. -/
theorem rm_isSome {H : ℕ} (hH : ∀ q, (fs.get q).isSome = true → q.length ≤ H) (hfuel : 0 < fuel)
    (hdeep : ∀ t, fs.resolve path = some t → H < fuel + t.length) :
    (rm pol fuel path fs).isSome = true := by
  induction fuel generalizing path fs with
  | zero => omega
  | succ fuel ih =>
      rw [rm]
      cases hlstat : fs.lstat pol path with
      | none => rfl
      | some st =>
          dsimp only
          split_ifs with hmode
          · rfl
          · cases hopen : fs.opendir pol path with
            | none => rfl
            | some names =>
                obtain ⟨t, hst⟩ := lstat_eq_some.1 hlstat
                obtain ⟨u, hu, -, rfl⟩ := FileSystem.opendir_eq_some.1 hopen
                obtain ⟨-, rfl⟩ := hst.isDir_of_directory hmode hu
                dsimp only
                rw [Option.isSome_map]
                refine rmEntries_isSome (fun fs₁ => Within fs₁.toPathTable fs.toPathTable)
                  (fun n hmem hdots fs₁ hwithin => ?_) true (Within.refl _)
                have hchild := (mem_readdir hdots).1 hmem
                have hn := not_isDots hchild
                have hlen := hH _ hchild
                have hroom := hdeep u hst.resolve
                rw [List.length_append, List.length_singleton] at hlen
                have hsome : (rm pol fuel (path ++ [n]) fs₁).isSome = true := by
                  refine ih (fun q hq => hH q (hwithin.isSome hq)) (by omega) fun v hv => ?_
                  rw [resolve_entry hn hu hwithin hv, List.length_append, List.length_singleton]
                  omega
                obtain ⟨⟨b, fs₂⟩, hrm⟩ := Option.isSome_iff_exists.1 hsome
                exact ⟨b, fs₂, hrm,
                  (entry_cleared hn hu hwithin (rm_spec hrm)).1.within.trans hwithin⟩

/-! ### Trees that are removed -/

/-- Every file of the tree can be removed, and `Rm` gets to it.  So no call in it is refused. -/
def Clean (pol : Policy) (fs : FileSystem) (t : Path) : Prop :=
  ∀ q i, fs.get q = some i → t <+: q → Removable pol q i ∧ Handled pol q i

/-- What of the files the path of an entry needs is left, whatever entries are gone.  The path
leads to the directory, and its entry by one name. -/
theorem emptied_within_entry (hcleared : Cleared pol (Below t) fs₀ fs) (n : Bytes) :
    Within (fs₀.emptied t).toPathTable (fs.emptied (t ++ [n])).toPathTable := by
  intro q i hi
  have hi : (fs₀.emptied t).get q = some i := hi
  show (fs.emptied (t ++ [n])).get q = some i
  rw [FileSystem.get_emptied] at hi ⊢
  split_ifs at hi with hbelow
  rw [if_neg, hcleared.frame q i hi hbelow]
  rintro ⟨⟨r, rfl⟩, hne⟩
  exact hbelow ⟨⟨n :: r, by simp⟩, by simp⟩

/-- An entry of such a tree is gone after the call for it.  Its own tree is such a tree. -/
theorem entry_of_clean
    (ih : ∀ {path fs b fs' t}, rm pol fuel path fs = some (b, fs') → fs.resolve path = some t →
      Clean pol fs t → (fs.emptied t).target path = some t → b = true)
    (hclean : Clean pol fs₀ t) (hleads : (fs₀.emptied t).directory path = some t)
    (hcleared : Cleared pol (Below t) fs₀ fs) (hn : ¬FileSystem.IsDots n)
    (h : rm pol fuel (path ++ [n]) fs = some (b, fs')) :
    b = true ∧ fs'.get (t ++ [n]) = none := by
  have hsub := emptied_within_entry hcleared n
  have hstep : (FileSystem.stepTo · n) t = t ++ [n] := FileSystem.stepTo_name hn
  have hleads' : (fs.emptied (t ++ [n])).resolve (path ++ [n]) = some (t ++ [n]) := by
    rw [FileSystem.resolve_concat, FileSystem.directory, FileSystem.walk_mono hsub hleads]
    exact congrArg some hstep
  have hres := FileSystem.resolve_mono (emptied_within _ _) hleads'
  have hchild : Clean pol fs (t ++ [n]) := fun q i hi hq =>
    hclean q i (hcleared.within q i hi) ((List.prefix_append t [n]).trans hq)
  have hb := ih h hres hchild (by rw [FileSystem.target_concat hn, hleads'])
  refine ⟨hb, ?_⟩
  rcases rm_spec h with ⟨hlstat, -, rfl⟩ | ⟨u, st, hst, hout⟩
  · by_contra hthere
    obtain ⟨i, hi⟩ := Option.ne_none_iff_exists'.1 hthere
    have hfound := (hchild _ i hi List.prefix_rfl).2.found
    rw [lstat_eq_some.2 ⟨_, hres, hfound, hi⟩] at hlstat
    cases hlstat
  · obtain rfl := hst.eq hres
    exact hout.gone_iff.1 hb

/-- The loop leaves no entry of such a tree.  The induction is over the names. -/
theorem rmEntries_of_clean
    (ih : ∀ {path fs b fs' t}, rm pol fuel path fs = some (b, fs') → fs.resolve path = some t →
      Clean pol fs t → (fs.emptied t).target path = some t → b = true)
    (hclean : Clean pol fs₀ t) (hleads : (fs₀.emptied t).directory path = some t)
    (hcleared : Cleared pol (Below t) fs₀ fs) {names : List Bytes} (hnames : [] ∉ names)
    (h : rmEntries (rm pol fuel) path names true fs = some (b, fs')) :
    b = true ∧ ∀ n ∈ names, ¬(n = dot ∨ n = dotdot) → fs'.get (t ++ [n]) = none := by
  have hdir := FileSystem.walk_mono (emptied_within _ _) hleads
  induction names generalizing fs with
  | nil =>
      obtain ⟨rfl, rfl⟩ := Prod.mk.inj (Option.some.inj h)
      exact ⟨rfl, fun n hn => absurd hn List.not_mem_nil⟩
  | cons n names ihn =>
      rw [List.mem_cons, not_or] at hnames
      rw [rmEntries] at h
      split_ifs at h with hdots
      · obtain ⟨hb, hgone⟩ := ihn hcleared hnames.2 h
        refine ⟨hb, fun m hm hmdots => ?_⟩
        rcases List.mem_cons.1 hm with rfl | hm
        · exact absurd hdots hmdots
        · exact hgone m hm hmdots
      · obtain ⟨⟨b₁, fs₁⟩, hchild, hrest⟩ := Option.bind_eq_some_iff.1 h
        have hn : ¬FileSystem.IsDots n := by
          rintro (rfl | hn)
          · exact hnames.1 rfl
          · exact hdots hn
        obtain ⟨rfl, hgone₁⟩ := entry_of_clean ih hclean hleads hcleared hn hchild
        have hcleared₁ := hcleared.trans
          (entry_cleared hn hdir hcleared.within (rm_spec hchild)).1
        obtain ⟨hb, hgone⟩ := ihn hcleared₁ hnames.2 hrest
        refine ⟨hb, fun m hm hmdots => ?_⟩
        rcases List.mem_cons.1 hm with rfl | hm
        · -- what is gone stays so
          have hwithin := (rmEntries_cleared hdir hnames.2 hcleared₁.within hrest).within
          by_contra hthere
          obtain ⟨i, hi⟩ := Option.ne_none_iff_exists'.1 hthere
          exact absurd (hwithin _ i hi) (by simp [hgone₁])
        · exact hgone m hm hmdots

/-- Where the loop has left no entry of such a tree, the directory can be removed.  It is empty
and the call is not denied. -/
theorem rmdir_of_clean (hdir : Opened pol fs path t st) (hremovable : Removable pol t st)
    (hleads : (fs.emptied t).target path = some t) (hcleared : Cleared pol (Below t) fs fs₁)
    (hgone : ∀ n ∈ dot :: dotdot :: fs.names t, ¬(n = dot ∨ n = dotdot) →
      fs₁.get (t ++ [n]) = none) :
    fs₁.rmdir pol path = some (fs₁.without t) := by
  have hrest := (emptied_within_entry hcleared []).trans (emptied_within _ _)
  have hthere : fs₁.get t = some st := hcleared.frame t st hdir.there fun hbelow => hbelow.2 rfl
  have hnames : fs₁.names t = [] := by
    refine List.eq_nil_iff_forall_not_mem.2 fun n hn => ?_
    have hchild := hcleared.within.isSome (mem_names.1 hn)
    have hdots : ¬(n = dot ∨ n = dotdot) := fun h => not_isDots hchild (.inr h)
    rw [mem_names, hgone n ((mem_readdir hdots).2 hchild) hdots] at hn
    cases hn
  rw [Removable, if_pos hdir.type] at hremovable
  exact FileSystem.rmdir_eq_some.2 ⟨t, FileSystem.target_mono hrest hleads,
    ⟨st, hthere, hdir.type⟩, hnames, hremovable, rfl⟩

/-- Such a tree is removed, if its path leads there with its entries gone.  The induction is
over the calls within calls. -/
theorem rm_of_clean (h : rm pol fuel path fs = some (b, fs')) (hres : fs.resolve path = some t)
    (hclean : Clean pol fs t) (hleads : (fs.emptied t).target path = some t) : b = true := by
  induction fuel generalizing path fs b fs' t with
  | zero => cases h
  | succ fuel ih =>
      -- the loop leaves nothing, in a directory that is opened
      have hloop : ∀ {st ret fs₁}, Opened pol fs path t st →
          rmEntries (rm pol fuel) path (dot :: dotdot :: fs.names t) true fs = some (ret, fs₁) →
          ret = true ∧ fs₁.rmdir pol path = some (fs₁.without t) := by
        intro st ret fs₁ hdir hloop
        have hthere : (fs.emptied t).get t = some st := by
          rw [FileSystem.get_emptied, if_neg (by simp), hdir.there]
        obtain ⟨hret, hgone⟩ := rmEntries_of_clean ih hclean
          (FileSystem.directory_of_target hleads ⟨st, hthere, hdir.type⟩) (.refl fs)
          (nil_notMem_readdir fs t) hloop
        exact ⟨hret, rmdir_of_clean hdir (hclean t st hdir.there List.prefix_rfl).1 hleads
          (rmEntries_cleared hdir.directory (nil_notMem_readdir fs t) (Within.refl _) hloop) hgone⟩
      cases rm_goes h with
      | absent => rfl
      | unlinked hst hmode =>
          obtain rfl := hst.eq hres
          have hdir := (Inode.mode_and_sIfdir _).1 hmode
          have hremovable := (hclean _ _ hst.there List.prefix_rfl).1
          rw [Removable, if_neg hdir.1] at hremovable
          simp [unlink, lstat_eq_some.2 ⟨_, hst⟩, FileSystem.unlink_eq hres hst.there hdir.1,
            hremovable]
      | closed hst hmode hopen =>
          obtain rfl := hst.eq hres
          have hdir := hst.opened hmode (hclean _ _ hst.there List.prefix_rfl).2
          rw [hdir.opendir] at hopen
          cases hopen
      | left hdir hentries hrmdir =>
          obtain rfl := hdir.eq hres
          rw [(hloop hdir hentries).2] at hrmdir
          cases hrmdir
      | removed hdir hentries hrmdir =>
          obtain rfl := hdir.eq hres
          exact (hloop hdir hentries).1

/-! ### Correctness -/

/-- Some removal in the tree fails: it is refused, or the directory is not found any more by its
path once it is empty.  It is a condition on the files and the policy before the call. -/
def Refused (pol : Policy) (fs : FileSystem) (path : List Bytes) (t : Path) : Prop :=
  (∃ q i, fs.get q = some i ∧ t <+: q ∧ ¬Removable pol q i) ∨ (fs.emptied t).target path ≠ some t

/-- There is a tree at the path.  The path leads to a file. -/
def TreeAt (fs : FileSystem) (path : List Bytes) (t : Path) : Prop :=
  fs.resolve path = some t ∧ (fs.get t).isSome = true

/-- What `Rm(path)` is to return and leave: without the tree and nothing else, unless some
removal fails.  With a removal that fails, it is to return false. -/
structure Correct (pol : Policy) (fs : FileSystem) (path : List Bytes) (b : Bool)
    (fs' : FileSystem) : Prop where
  removes : ∀ t, TreeAt fs path t → ¬Refused pol fs path t →
    b = true ∧ ∀ q, fs'.get q = if t <+: q then none else fs.get q
  reports : ∀ t, TreeAt fs path t → Refused pol fs path t → b = false
  nothing : (∀ t, ¬TreeAt fs path t) → b = true ∧ fs' = fs

/-- A file that is gone is gone with all below it.  A tree has no holes. -/
theorem get_below_eq_none (h : fs.get t = none) (hq : t <+: q) : fs.get q = none := by
  by_contra hthere
  have hsome := isSome_of_prefix hq (Option.ne_none_iff_isSome.1 hthere)
  rw [h] at hsome
  cases hsome

/-- When it returns true, nothing was in its way.  So all of it could be removed. -/
theorem clean_of_true (hout : Outcome pol fs path t true fs') :
    Clean pol fs t ∧ ¬Refused pol fs path t := by
  have hclean : Clean pol fs t := fun q i hi hq =>
    hout.cleared.handled q i hi (get_below_eq_none (hout.gone_iff.1 rfl) hq)
  refine ⟨hclean, ?_⟩
  rintro (⟨q, i, hi, hq, hrefused⟩ | hleads)
  · exact hrefused (hclean q i hi hq).1
  · exact hleads (hout.leads rfl)

/-- A tree is removed, and all else is left.  It is the postcondition of `Rm`. -/
theorem get_of_true (hout : Outcome pol fs path t true fs') (q : Path) :
    fs'.get q = if t <+: q then none else fs.get q := by
  split_ifs with hq
  · exact get_below_eq_none (hout.gone_iff.1 rfl) hq
  · cases hi : fs.get q with
    | none => exact Option.eq_none_iff_forall_ne_some.2 fun i h =>
        absurd (hout.cleared.within q i h) (by simp [hi])
    | some i => exact hout.cleared.frame q i hi hq

/-- There is one tree at a path.  So the statement about every tree is one about this one. -/
theorem correct_iff (htree : TreeAt fs path t) :
    Correct pol fs path b fs' ↔
      (¬Refused pol fs path t → b = true ∧ ∀ q, fs'.get q = if t <+: q then none else fs.get q) ∧
        (Refused pol fs path t → b = false) := by
  have hunique : ∀ u, TreeAt fs path u → u = t := fun u h =>
    Option.some.inj (h.1.symm.trans htree.1)
  refine ⟨fun h => ⟨h.removes t htree, h.reports t htree⟩, fun h => ⟨fun u hu => ?_, fun u hu => ?_,
    fun hnone => absurd htree (hnone t)⟩⟩
  · exact hunique u hu ▸ h.1
  · exact hunique u hu ▸ h.2

/-- What stands in the way of `Correct`, at the file that the path leads to.  It is decided
before the call. -/
theorem correct_iff_of_tree (hrm : rm pol fuel path fs = some (b, fs')) (htree : TreeAt fs path t) :
    Correct pol fs path b fs' ↔ pol.denied .lstat t = false ∧
      (Refused pol fs path t ∨ ∀ q i, fs.get q = some i → t <+: q → Handled pol q i) := by
  rw [correct_iff htree]
  rcases rm_spec hrm with ⟨hlstat, rfl, rfl⟩ | ⟨u, st, hst, hout⟩
  · -- it is not found, so it is left, and `Rm` returns true
    obtain ⟨st, ht⟩ := Option.isSome_iff_exists.1 htree.2
    have hdenied : ¬pol.denied .lstat t = false := fun hfound => by
      rw [lstat_eq_some.2 ⟨t, htree.1, hfound, ht⟩] at hlstat
      cases hlstat
    refine iff_of_false (fun h => ?_) fun h => hdenied h.1
    by_cases hrefused : Refused pol fs' path t
    · cases h.2 hrefused
    · have hgone := (h.1 hrefused).2 t
      rw [if_pos List.prefix_rfl, ht] at hgone
      cases hgone
  · obtain rfl := hst.eq htree.1
    rw [and_iff_right hst.found]
    cases b with
    | true =>
        obtain ⟨hclean, hnot⟩ := clean_of_true hout
        exact iff_of_true ⟨fun _ => ⟨rfl, get_of_true hout⟩, fun h => absurd h hnot⟩
          (.inr fun q i hi hq => (hclean q i hi hq).2)
    | false =>
        by_cases hrefused : Refused pol fs path t
        · exact iff_of_true ⟨fun h => absurd hrefused h, fun _ => rfl⟩ (.inl hrefused)
        · refine iff_of_false (fun h => ?_) fun h => ?_
          · cases (h.1 hrefused).1
          · have hhandled := h.resolve_left hrefused
            rw [Refused, not_or, not_not] at hrefused
            have hclean : Clean pol fs t := fun q i hi hq =>
              ⟨by_contra fun hnot => hrefused.1 ⟨q, i, hi, hq, hnot⟩, hhandled q i hi hq⟩
            cases rm_of_clean hrm htree.1 hclean hrefused.2

/-- **`Rm` removes the tree** at its path, and tells whether it has, if and only if the file
there is found, and either a removal in the tree fails anyway, or no file of the tree is a
socket or a block device, all are found and the directories can be opened.  The statement is for
every file system, path and policy, and the result exists.  `Rm` is
`src/hiper/base/util.cc:218-247`: line 224 tests one bit of the file type, which sockets and
block devices have in common with directories, and line 240 keeps the answer of the last entry
alone. -/
theorem rm_correct_iff (pol : Policy) (fs : FileSystem) (path : List Bytes) {fuel : ℕ}
    (hfuel : fs.height < fuel) :
    (∃ b fs', rm pol fuel path fs = some (b, fs') ∧ Correct pol fs path b fs') ↔
      ∀ t, TreeAt fs path t → pol.denied .lstat t = false ∧
        (Refused pol fs path t ∨ ∀ q i, fs.get q = some i → t <+: q → Handled pol q i) := by
  have hsome : (rm pol fuel path fs).isSome = true :=
    rm_isSome (fun q hq => length_le_height hq) (by omega) fun t _ => by omega
  obtain ⟨⟨b, fs'⟩, hrm⟩ := Option.isSome_iff_exists.1 hsome
  have hresult : (∃ b fs', rm pol fuel path fs = some (b, fs') ∧ Correct pol fs path b fs') ↔
      Correct pol fs path b fs' := by
    refine ⟨?_, fun h => ⟨b, fs', hrm, h⟩⟩
    rintro ⟨b', fs₁, hrm', h⟩
    obtain ⟨rfl, rfl⟩ := Prod.mk.inj (Option.some.inj (hrm'.symm.trans hrm))
    exact h
  rw [hresult]
  by_cases htree : ∃ t, TreeAt fs path t
  · obtain ⟨t, htree⟩ := htree
    rw [correct_iff_of_tree hrm htree]
    refine ⟨fun h t' htree' => ?_, fun h => h t htree⟩
    rwa [Option.some.inj (htree'.1.symm.trans htree.1)]
  · have hnone : ∀ t, ¬TreeAt fs path t := not_exists.1 htree
    refine iff_of_true ⟨fun t h => absurd h (hnone t), fun t h => absurd h (hnone t), fun _ => ?_⟩
      fun t h => absurd h (hnone t)
    rcases rm_spec hrm with ⟨-, hb, hfs⟩ | ⟨t, st, hst, -⟩
    · exact ⟨hb, hfs⟩
    · exact absurd ⟨hst.resolve, by rw [hst.there]; rfl⟩ (hnone t)

/-! ### A file `s` in the root directory -/

/-- The files: one of this type, and the root.  Its name is `s`. -/
def oneFile (type : FileType) : FileSystem where
  root := ⟨.dir, 0x1ed⟩
  entries := [([[115]], ⟨type, 0x1ed⟩)]
  branch_root := rfl
  nodup := List.nodup_singleton _
  parent p n b hb := by
    cases p with
    | nil => exact ⟨_, if_pos rfl, rfl⟩
    | cons m p => simp [valueAt] at hb
  named p n h := by
    cases p with
    | nil =>
        obtain rfl : n = [115] := by
          by_contra hne
          simp [PathTable.get, valueAt, Ne.symm hne] at h
        constructor <;> decide
    | cons m p => simp [PathTable.get, valueAt] at h

/-- Only the root is in use.  Nothing is refused. -/
def allowing : Policy := ⟨fun c q => c = .rmdir ∧ q = [], by decide⟩

/-- A regular file is removed.  The path is one name. -/
theorem rm_regular :
    ∃ b fs', rm allowing 3 [[115]] (oneFile .reg) = some (b, fs') ∧
      Correct allowing (oneFile .reg) [[115]] b fs' := by
  refine (rm_correct_iff allowing (oneFile .reg) [[115]] (by decide)).2 fun t _ =>
    ⟨rfl, .inr fun q i hi _ => ?_⟩
  have htype : i.type = .dir ∨ i.type = .reg := by
    unfold PathTable.get valueAt oneFile at hi
    split_ifs at hi
    · exact .inl (Option.some.inj hi ▸ rfl)
    · obtain ⟨e, he, rfl⟩ := Option.map_eq_some_iff.1 hi
      exact .inr (List.mem_singleton.1 (List.mem_of_find?_eq_some he) ▸ rfl)
  constructor <;> rcases htype with htype | htype <;> simp [htype, allowing]

/-- A socket is opened as a directory, and left.  The failing input. -/
theorem rm_socket :
    ¬∃ b fs', rm allowing 3 [[115]] (oneFile .sock) = some (b, fs') ∧
      Correct allowing (oneFile .sock) [[115]] b fs' := by
  rintro ⟨b, fs', hrm, hcorrect⟩
  have heval : rm allowing 3 [[115]] (oneFile .sock) = some (false, oneFile .sock) := rfl
  obtain ⟨rfl, rfl⟩ := Prod.mk.inj (Option.some.inj (heval.symm.trans hrm))
  have htree : TreeAt (oneFile .sock) [[115]] [[115]] := ⟨rfl, rfl⟩
  by_cases hrefused : Refused allowing (oneFile .sock) [[115]] [[115]]
  · rcases hrefused with ⟨q, i, -, hq, hnot⟩ | hleads
    · refine hnot ?_
      have hne : q ≠ [] := by
        rintro rfl
        cases List.prefix_nil.1 hq
      simp [Removable, allowing, hne]
    · exact hleads rfl
  · cases (hcorrect.removes _ htree hrefused).1

end FSUtil

end Hiper
