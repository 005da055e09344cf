/-
  Archiving completed days (`scripts/honas_state_rotate.py`), and the aggregation of
  what was archived (`scripts/honas_daily_state_combine.py`).

  The rotation moves the files of every completed day to a directory of the archive, and
  writes these days to the rotation file.  The aggregation goes through the days in the
  rotation file, and removes it.  Both run from time to time; the rotation file is all
  that one knows of the other, and it is written as a whole.

  * `noDayForgotten_iff`: every archived day is processed or listed throughout a run
    exactly if no rotation moves a day while there still is a rotation file.
-/
import Honas.DailyCombine

namespace Honas

open Bits Calendar

/-! ## The rotation -/

/-- A directory of the archive: the names of its files, and the files. -/
structure ArchiveDirectory where
  listing : List (List Char)
  files : Directory

/-- The archive: its directories by their names, and the text of the rotation file. -/
structure Archive where
  directories : List Char → Option ArchiveDirectory
  rotationFile : Option (List Char)

/-- `strftime` with the format `%d-%m-%Y`. -/
def dayName (tm : Tm) : List Char :=
  twoDigits tm.mday ++ ['-'] ++ twoDigits tm.mon ++ ['-'] ++ Nat.toDigits 10 tm.year.toNat

/-- A state file of the spool directory: its name, its contents and its day. -/
structure SpoolFile where
  name : List Char
  content : List Byte
  day : List Char

/-- The files with their days; `none` when a name cannot be parsed. -/
def spoolFiles (spool : List (List Char × List Byte)) : Option (List SpoolFile) :=
  spool.mapM fun (name, content) => (stateTime name).map fun tm => ⟨name, content, dayName tm⟩

/-- `required_state_files`; `none` for a division by zero. -/
def requiredStateFiles (stateInterval : ℤ) : Option ℤ :=
  if stateInterval = 0 then none else some (Int.tdiv 86400 stateInterval)

/-- The loop that fills `completed_states`: the keys in the order of their insertion,
    and the counts. -/
def completedStates (files : List SpoolFile) : List (List Char) × (List Char → ℕ) :=
  files.foldl (fun (keys, counts) file =>
    if file.day ∈ keys then (keys, Function.update counts file.day (counts file.day + 1))
    else (keys ++ [file.day], Function.update counts file.day 1)) ([], fun _ => 0)

/-- The directory with the files of a day. -/
def dayDirectory (files : List SpoolFile) (day : List Char) : ArchiveDirectory where
  listing := (files.filter (·.day = day)).map (·.name)
  files := fun name => ((files.filter (·.day = day)).find? (·.name = name)).map (·.content)

/-- The loop over the completed days; a day of which the directory exists is skipped. -/
def archiveDays (files : List SpoolFile) (days : List (List Char))
    (directories : List Char → Option ArchiveDirectory) :
    (List Char → Option ArchiveDirectory) × List (List Char) :=
  days.foldl (fun (directories, moved) day =>
    match directories day with
    | some _ => (directories, moved)
    | none => (Function.update directories day (some (dayDirectory files day)), moved ++ [day]))
    (directories, [])

/-- The text of the rotation file. -/
def rotationText (days : List (List Char)) : List Char := days.flatMap (· ++ ['\n'])

/-- `honas_state_rotate`, for the files in the spool directory: the archive, and the
    days that are written to the rotation file. -/
def honasStateRotate (stateInterval : ℤ) (spool : List (List Char × List Byte))
    (archive : Archive) : Option (Archive × List (List Char)) := do
  let requiredStateFiles ← requiredStateFiles stateInterval
  let files ← spoolFiles spool
  let (keys, counts) := completedStates files
  let completed := keys.filter fun day => requiredStateFiles ≤ counts day
  let (directories, moved) := archiveDays files completed archive.directories
  some (⟨directories, if moved.length > 0 then some (rotationText moved) else archive.rotationFile⟩,
    moved)

/-! ## The aggregation -/

/-- The lines of the rotation file that are not empty. -/
def rotationLines (text : List Char) : List (List Char) := (text.splitOn '\n').filter (· ≠ [])

/-- `os.listdir`, which lists the files in any order. -/
structure Listdir where
  order : List (List Char) → List (List Char)
  perm : ∀ l, (order l).Perm l

/-- One line of the rotation file: the directories, and the days that were combined. -/
def combineDay (estimate : ℚ → ℕ → BitVec 64) (listdir : Listdir)
    (acc : (List Char → Option ArchiveDirectory) × List (List Char)) (line : List Char) :
    (List Char → Option ArchiveDirectory) × List (List Char) :=
  match acc.1 line with
  | none => acc
  | some directory =>
    match mergeDirectory estimate (listdir.order directory.listing) directory.files with
    | none => acc
    | some (destinationFile, files) =>
      (Function.update acc.1 line (some ⟨if destinationFile ∈ directory.listing then
        directory.listing else directory.listing ++ [destinationFile], files⟩), acc.2 ++ [line])

/-- `honas_daily_state_combine`: the archive, and the days that were combined. -/
def honasDailyStateCombine (estimate : ℚ → ℕ → BitVec 64) (listdir : Listdir)
    (archive : Archive) : Archive × List (List Char) :=
  match archive.rotationFile with
  | none => (archive, [])
  | some text =>
    let (directories, processed) :=
      (rotationLines text).foldl (combineDay estimate listdir) (archive.directories, [])
    (⟨directories, none⟩, processed)

/-! ## Runs of both scripts -/

/-- A run of one of the scripts; the rotation finds any files in the spool directory. -/
inductive ArchiveEvent where
  | rotate (stateInterval : ℤ) (spool : List (List Char × List Byte))
  | combine (listdir : Listdir)

/-- The archive, the days that were moved to it and the days that were combined. -/
structure ArchiveRun where
  archive : Archive
  moved : List (List Char)
  processed : List (List Char)

/-- A whole run of one of the scripts; `none` if it stops with an exception. -/
def archiveStep (estimate : ℚ → ℕ → BitVec 64) (s : ArchiveRun) :
    ArchiveEvent → Option ArchiveRun
  | .rotate stateInterval spool =>
    (honasStateRotate stateInterval spool s.archive).map fun (archive, moved) =>
      { s with archive, moved := s.moved ++ moved }
  | .combine listdir =>
    let (archive, processed) := honasDailyStateCombine estimate listdir s.archive
    some { s with archive, processed := s.processed ++ processed }

/-! ## What the scripts do -/

/-- A directory with files of which all names can be parsed. -/
structure ArchiveDirectory.Fresh (directory : ArchiveDirectory) : Prop where
  listing_ne : directory.listing ≠ []
  stateTime : ∀ name ∈ directory.listing, (stateTime name).isSome

/-- A day that the rotation moves: all its files are there, and it has no directory. -/
def NewlyCompleted (stateInterval : ℤ) (spool : List (List Char × List Byte))
    (directories : List Char → Option ArchiveDirectory) (day : List Char) : Prop :=
  ∃ required files, requiredStateFiles stateInterval = some required ∧
    spoolFiles spool = some files ∧ (∃ file ∈ files, file.day = day) ∧
    required ≤ files.countP (·.day = day) ∧ directories day = none

/-- The counts of the days. -/
theorem completedStates_spec (files : List SpoolFile) (day : List Char) :
    (day ∈ (completedStates files).1 ↔ ∃ file ∈ files, file.day = day) ∧
      (day ∈ (completedStates files).1 →
        (completedStates files).2 day = files.countP (·.day = day)) := by
  induction files using List.reverseRecOn with
  | nil => simp [completedStates]
  | append_singleton files file ih =>
    have hstep : completedStates (files ++ [file]) =
        if file.day ∈ (completedStates files).1 then ((completedStates files).1,
          Function.update (completedStates files).2 file.day ((completedStates files).2 file.day + 1))
        else ((completedStates files).1 ++ [file.day],
          Function.update (completedStates files).2 file.day 1) := by
      rw [completedStates, List.foldl_append]
      rfl
    obtain ⟨hmem, hcount⟩ := ih
    rw [hstep]
    by_cases hkey : file.day ∈ (completedStates files).1
    · rw [if_pos hkey]
      by_cases hday : file.day = day
      · subst hday
        simp [hkey, hcount hkey]
      · simp [hmem, hday, Function.update_of_ne (Ne.symm hday)]
        simpa [hmem] using hcount
    · rw [if_neg hkey]
      by_cases hday : file.day = day
      · subst hday
        have hno : ∀ file' ∈ files, file'.day ≠ file.day := by
          simpa [hmem] using hkey
        have hzero : files.countP (·.day = file.day) = 0 := by
          simpa [List.countP_eq_zero] using hno
        simp [hzero]
      · simp [hmem, hday, Ne.symm hday]
        simpa [hmem] using hcount

/-- The days that are moved, and the directories. -/
theorem archiveDays_spec (files : List SpoolFile) (days : List (List Char))
    (directories : List Char → Option ArchiveDirectory) (day : List Char) :
    (day ∈ (archiveDays files days directories).2 ↔ day ∈ days ∧ directories day = none) ∧
      (archiveDays files days directories).1 day =
        if day ∈ (archiveDays files days directories).2 then some (dayDirectory files day)
        else directories day := by
  induction days using List.reverseRecOn generalizing day with
  | nil => simp [archiveDays]
  | append_singleton days day' ih =>
    have hstep : archiveDays files (days ++ [day']) directories =
        match (archiveDays files days directories).1 day' with
        | some _ => archiveDays files days directories
        | none => (Function.update (archiveDays files days directories).1 day'
            (some (dayDirectory files day')), (archiveDays files days directories).2 ++ [day']) := by
      rw [archiveDays, List.foldl_append]
      rfl
    rw [hstep]
    obtain ⟨hmem, hdir⟩ := ih day
    obtain ⟨hmem', hdir'⟩ := ih day'
    cases hd : (archiveDays files days directories).1 day' with
    | some directory =>
      refine ⟨?_, hdir⟩
      rw [hmem, List.mem_append, List.mem_singleton]
      refine ⟨fun h => ⟨.inl h.1, h.2⟩, fun ⟨h, hnone⟩ => ⟨h.elim id fun heq => ?_, hnone⟩⟩
      -- the day has a directory, so it was moved before
      subst heq
      by_contra hno
      rw [hdir', if_neg fun h => hno (hmem'.1 h).1, hnone] at hd
      cases hd
    | none =>
      have hnone : directories day' = none := by
        rw [hdir'] at hd
        split_ifs at hd
        exact hd
      by_cases hday : day = day'
      · subst hday
        simp [hnone]
      · simp [hmem, hdir, hday]

/-- The lines of a rotation file. -/
theorem rotationLines_rotationText : ∀ {days : List (List Char)},
    (∀ day ∈ days, day ≠ [] ∧ '\n' ∉ day) → rotationLines (rotationText days) = days
  | [], _ => rfl
  | day :: days, h => by
    rw [List.forall_mem_cons] at h
    have ih := rotationLines_rotationText h.2
    have hnl : ∀ c ∈ day, (c == '\n') = false := by
      intro c hc
      rw [beq_eq_false_iff_ne]
      rintro rfl
      exact h.1.2 hc
    rw [rotationLines, rotationText] at ih ⊢
    rw [List.flatMap_cons, List.append_assoc, List.singleton_append, List.splitOn_eq_splitOnP,
      List.splitOnP_append_cons_of_forall_mem hnl _ (by simp), ← List.splitOn_eq_splitOnP,
      List.filter_cons_of_pos (by simpa using h.1.1), ih]

theorem newline_notMem_dayName (tm : Tm) : '\n' ∉ dayName tm := by
  have hdigit : ∀ n, '\n' ≠ Nat.digitChar n := by
    intro n
    by_cases h : n < 16
    · revert n
      decide
    · rw [digitChar_of_ge (by omega)]
      decide
  have hyear : '\n' ∉ Nat.toDigits 10 tm.year.toNat := fun h =>
    absurd (Nat.isDigit_of_mem_toDigits (by decide) (by decide) h) (by decide)
  simp [dayName, twoDigits, hdigit, hyear]

/-- The days of the files in the spool directory. -/
theorem mem_spoolFiles {spool : List (List Char × List Byte)} {files : List SpoolFile}
    (h : spoolFiles spool = some files) {file : SpoolFile} (hfile : file ∈ files) :
    (stateTime file.name).isSome ∧ file.day ≠ [] ∧ '\n' ∉ file.day := by
  have hall : ∀ {spool : List (List Char × List Byte)} {files : List SpoolFile},
      spoolFiles spool = some files → ∀ file ∈ files,
        ∃ tm, stateTime file.name = some tm ∧ file.day = dayName tm := by
    intro spool
    induction spool with
    | nil =>
      intro files h
      cases h
      simp
    | cons entry spool ih =>
      intro files h
      rw [spoolFiles, List.mapM_cons] at h
      obtain ⟨first, hfirst, h⟩ := Option.bind_eq_some_iff.1 h
      obtain ⟨rest, hrest, h⟩ := Option.bind_eq_some_iff.1 h
      obtain ⟨tm, htm, rfl⟩ := Option.map_eq_some_iff.1 hfirst
      obtain rfl := Option.some.inj h
      rw [List.forall_mem_cons]
      exact ⟨⟨tm, htm, rfl⟩, ih hrest⟩
  obtain ⟨tm, htm, hday⟩ := hall h file hfile
  refine ⟨by rw [htm]; rfl, by rw [hday]; simp [dayName, twoDigits], ?_⟩
  rw [hday]
  exact newline_notMem_dayName tm

/-- **The rotation.** -/
theorem honasStateRotate_spec {stateInterval : ℤ} {spool : List (List Char × List Byte)}
    {archive archive' : Archive} {moved : List (List Char)}
    (h : honasStateRotate stateInterval spool archive = some (archive', moved)) :
    (∀ day, day ∈ moved ↔ NewlyCompleted stateInterval spool archive.directories day) ∧
      (∀ day ∈ moved, ∃ directory, archive'.directories day = some directory ∧ directory.Fresh) ∧
      (∀ day, day ∉ moved → archive'.directories day = archive.directories day) ∧
      (moved = [] → archive'.rotationFile = archive.rotationFile) ∧
      (moved ≠ [] → ∃ text, archive'.rotationFile = some text ∧ rotationLines text = moved) := by
  rw [honasStateRotate] at h
  obtain ⟨required, hrequired, h⟩ := Option.bind_eq_some_iff.1 h
  obtain ⟨files, hfiles, h⟩ := Option.bind_eq_some_iff.1 h
  obtain ⟨harchive, hmoved⟩ := Prod.mk.inj (Option.some.inj h)
  set completed := (completedStates files).1.filter fun day => required ≤ (completedStates files).2 day
    with hc
  change (archiveDays files completed archive.directories).2 = moved at hmoved
  have hdirectories : archive'.directories = (archiveDays files completed archive.directories).1 := by
    rw [← harchive]
    rfl
  have hrotation : archive'.rotationFile =
      if moved.length > 0 then some (rotationText moved) else archive.rotationFile := by
    rw [← harchive, ← hmoved]
    rfl
  have hcompleted : ∀ day, day ∈ completed ↔ (∃ file ∈ files, file.day = day) ∧
      required ≤ files.countP (·.day = day) := by
    intro day
    obtain ⟨hmem, hcount⟩ := completedStates_spec files day
    rw [hc, List.mem_filter, decide_eq_true_iff]
    refine ⟨fun h => ⟨hmem.1 h.1, ?_⟩, fun h => ⟨hmem.2 h.1, ?_⟩⟩
    · rw [← hcount h.1]; exact h.2
    · rw [hcount (hmem.2 h.1)]; exact h.2
  have hspec := archiveDays_spec files completed archive.directories
  rw [← hdirectories, hmoved] at hspec
  have hday : ∀ day ∈ moved, ∃ file ∈ files, file.day = day := fun day hmem =>
    ((hcompleted day).1 ((hspec day).1.1 hmem).1).1
  refine ⟨fun day => ?_, fun day hmem => ?_, fun day hno => ?_, fun hnil => ?_, fun hne => ?_⟩
  · rw [(hspec day).1, hcompleted]
    constructor
    · rintro ⟨⟨hfile, hle⟩, hnone⟩
      exact ⟨required, files, hrequired, hfiles, hfile, hle, hnone⟩
    · rintro ⟨required', files', hrequired', hfiles', hfile, hle, hnone⟩
      obtain rfl := Option.some.inj (hrequired.symm.trans hrequired')
      obtain rfl := Option.some.inj (hfiles.symm.trans hfiles')
      exact ⟨⟨hfile, hle⟩, hnone⟩
  · refine ⟨dayDirectory files day, by rw [(hspec day).2, if_pos hmem], ?_, fun name hname => ?_⟩
    · obtain ⟨file, hfile, heq⟩ := hday day hmem
      exact List.ne_nil_of_mem (List.mem_map_of_mem (List.mem_filter.2 ⟨hfile, by simpa using heq⟩))
    · obtain ⟨file, hfile, rfl⟩ := List.mem_map.1 hname
      exact (mem_spoolFiles hfiles (List.mem_filter.1 hfile).1).1
  · rw [(hspec day).2, if_neg hno]
  · rw [hrotation, if_neg (by simp [hnil])]
  · refine ⟨_, hrotation.trans (if_pos (List.length_pos_iff.2 hne)),
      rotationLines_rotationText fun day hmem => ?_⟩
    obtain ⟨file, hfile, rfl⟩ := hday day hmem
    exact (mem_spoolFiles hfiles hfile).2

/-- A day with a fresh directory is combined. -/
theorem ArchiveDirectory.Fresh.mergeDirectory {directory : ArchiveDirectory} (h : directory.Fresh)
    (estimate : ℚ → ℕ → BitVec 64) (listdir : Listdir) :
    ∃ merged, mergeDirectory estimate (listdir.order directory.listing) directory.files =
      some merged := by
  have hperm := listdir.perm directory.listing
  obtain ⟨first, rest, hlisting⟩ := List.exists_cons_of_ne_nil
    (show listdir.order directory.listing ≠ [] from fun hnil =>
      h.listing_ne (List.nil_perm.1 (hnil ▸ hperm)))
  obtain ⟨tm, htm⟩ := Option.isSome_iff_exists.1
    (h.stateTime first (hperm.subset (by rw [hlisting]; exact List.mem_cons_self ..)))
  rw [Honas.mergeDirectory, hlisting, List.head?_cons]
  simp only [Option.bind_eq_bind, Option.bind_some, htm]
  exact ⟨_, rfl⟩

/-- The directories, and the days that were combined. -/
abbrev CombinedDays : Type := (List Char → Option ArchiveDirectory) × List (List Char)

/-- What one line of the rotation file does. -/
structure DayStep (acc acc' : CombinedDays) (line : List Char) : Prop where
  directories : ∀ day, acc.1 day ≠ none → acc'.1 day ≠ none
  other : ∀ day, day ≠ line → acc'.1 day = acc.1 day
  kept : ∀ day ∈ acc.2, day ∈ acc'.2
  new : ∀ day ∈ acc'.2, day ∈ acc.2 ∨ acc.1 day ≠ none
  fresh : ∀ directory, acc.1 line = some directory → directory.Fresh → line ∈ acc'.2

/-- A line that is skipped. -/
theorem DayStep.skip {acc : CombinedDays} {line : List Char}
    (hno : ∀ directory, acc.1 line = some directory → ¬ directory.Fresh) : DayStep acc acc line :=
  ⟨fun _ => id, fun _ _ => rfl, fun _ => id, fun _ => .inl,
    fun directory hline hfresh => absurd hfresh (hno directory hline)⟩

theorem combineDay_spec (estimate : ℚ → ℕ → BitVec 64) (listdir : Listdir) (acc : CombinedDays)
    (line : List Char) : DayStep acc (combineDay estimate listdir acc line) line := by
  cases hline : acc.1 line with
  | none =>
    have he : combineDay estimate listdir acc line = acc := by rw [combineDay, hline]
    rw [he]
    exact .skip fun directory heq => by rw [hline] at heq; cases heq
  | some directory =>
    cases hmerge : mergeDirectory estimate (listdir.order directory.listing) directory.files with
    | none =>
      have he : combineDay estimate listdir acc line = acc := by
        rw [combineDay, hline]
        simp only [hmerge]
      rw [he]
      refine .skip fun directory' heq hfresh => ?_
      obtain rfl := Option.some.inj (hline.symm.trans heq)
      obtain ⟨merged, hm⟩ := hfresh.mergeDirectory estimate listdir
      rw [hmerge] at hm
      cases hm
    | some merged =>
      obtain ⟨directory', he⟩ : ∃ directory', combineDay estimate listdir acc line =
          (Function.update acc.1 line (some directory'), acc.2 ++ [line]) := by
        rw [combineDay, hline]
        simp only [hmerge]
        exact ⟨_, rfl⟩
      rw [he]
      refine ⟨fun day hday => ?_, fun day hne => Function.update_of_ne hne _ _,
        fun day hmem => List.mem_append_left _ hmem, fun day hmem => ?_,
        fun _ _ _ => List.mem_append_right _ (List.mem_singleton_self line)⟩
      · by_cases heq : day = line
        · subst heq
          simp
        · simpa [Function.update_of_ne heq] using hday
      · rcases List.mem_append.1 hmem with hmem | hmem
        · exact .inl hmem
        · refine .inr ?_
          rw [List.mem_singleton.1 hmem, hline]
          exact Option.some_ne_none _

/-- **The aggregation**: all days of which the directories are fresh are combined. -/
theorem foldl_combineDay (estimate : ℚ → ℕ → BitVec 64) (listdir : Listdir) :
    ∀ (lines : List (List Char)) (acc : CombinedDays),
      (∀ day, acc.1 day ≠ none → (lines.foldl (combineDay estimate listdir) acc).1 day ≠ none) ∧
      (∀ day ∈ acc.2, day ∈ (lines.foldl (combineDay estimate listdir) acc).2) ∧
      (∀ day ∈ (lines.foldl (combineDay estimate listdir) acc).2,
        day ∈ acc.2 ∨ (lines.foldl (combineDay estimate listdir) acc).1 day ≠ none) ∧
      ((∀ day ∈ lines, day ∈ acc.2 ∨ ∃ directory, acc.1 day = some directory ∧ directory.Fresh) →
        ∀ day ∈ lines, day ∈ (lines.foldl (combineDay estimate listdir) acc).2)
  | [], acc => ⟨fun _ => id, fun _ => id, fun _ => .inl, fun _ _ h => nomatch h⟩
  | line :: lines, acc => by
    obtain ⟨hdir, hother, hkeep, hnew, hfresh⟩ := combineDay_spec estimate listdir acc line
    obtain ⟨hdir', hkeep', hnew', hall'⟩ :=
      foldl_combineDay estimate listdir lines (combineDay estimate listdir acc line)
    rw [List.foldl_cons]
    refine ⟨fun day h => hdir' day (hdir day h), fun day h => hkeep' day (hkeep day h),
      fun day h => ?_, fun h day hmem => ?_⟩
    · rcases hnew' day h with h | h
      · exact (hnew day h).imp id fun h => hdir' day (hdir day h)
      · exact .inr h
    · -- a day stays fresh until its line is reached
      have hline : line ∈ (combineDay estimate listdir acc line).2 := by
        rcases h line (List.mem_cons_self ..) with h | ⟨directory, hd, hf⟩
        · exact hkeep line h
        · exact hfresh directory hd hf
      rcases List.mem_cons.1 hmem with rfl | hmem
      · exact hkeep' day hline
      · refine hall' (fun day' hmem' => ?_) day hmem
        by_cases heq : day' = line
        · exact .inl (heq ▸ hline)
        · rcases h day' (List.mem_cons_of_mem _ hmem') with h | h
          · exact .inl (hkeep day' h)
          · rw [hother day' heq]
            exact .inr h

/-! ## Runs -/

/-- Every day that was moved has been combined, or is listed. -/
def ArchiveRun.NoneForgotten (s : ArchiveRun) : Prop :=
  ∀ day ∈ s.moved, day ∈ s.processed ∨
    ∃ text, s.archive.rotationFile = some text ∧ day ∈ rotationLines text

/-- A rotation moves no day while there is a rotation file. -/
def ArchiveRun.Safe (s : ArchiveRun) : ArchiveEvent → Prop
  | .rotate stateInterval spool => s.archive.rotationFile = none ∨
      ∀ day, ¬ NewlyCompleted stateInterval spool s.archive.directories day
  | .combine _ => True

/-- What safe runs keep. -/
structure ArchiveInv (s : ArchiveRun) : Prop where
  moved : ∀ day ∈ s.moved, s.archive.directories day ≠ none
  processed : ∀ day ∈ s.processed, s.archive.directories day ≠ none
  noneForgotten : s.NoneForgotten
  pending : ∀ text, s.archive.rotationFile = some text → rotationLines text ≠ [] ∧
    ∀ day ∈ rotationLines text, day ∈ s.moved ∧ day ∉ s.processed ∧
      ∃ directory, s.archive.directories day = some directory ∧ directory.Fresh

section

variable {estimate : ℚ → ℕ → BitVec 64} {s s' : ArchiveRun}

/-- A safe rotation. -/
theorem ArchiveInv.rotate (hs : ArchiveInv s) {stateInterval : ℤ}
    {spool : List (List Char × List Byte)} (hsafe : s.Safe (.rotate stateInterval spool))
    (h : archiveStep estimate s (.rotate stateInterval spool) = some s') : ArchiveInv s' := by
  obtain ⟨⟨archive, moved⟩, hrot, rfl⟩ := Option.map_eq_some_iff.1 h
  obtain ⟨hmoved, hfresh, hother, hnil, hne⟩ := honasStateRotate_spec hrot
  have hkeep : ∀ day, s.archive.directories day ≠ none → archive.directories day ≠ none := by
    intro day hday
    by_cases hmem : day ∈ moved
    · obtain ⟨directory, hd, -⟩ := hfresh day hmem
      rw [hd]
      exact Option.some_ne_none _
    · rw [hother day hmem]
      exact hday
  by_cases hempty : moved = []
  · subst hempty
    have hsame : archive.directories = s.archive.directories :=
      funext fun day => hother day (List.not_mem_nil)
    have harchive : archive = s.archive := by
      cases archive
      cases hs' : s.archive
      simp only [hs'] at hsame hnil
      rw [hsame, hnil trivial]
    change ArchiveInv ⟨archive, s.moved ++ [], s.processed⟩
    rw [harchive, List.append_nil]
    exact hs
  · -- there was no rotation file, so everything before has been combined
    obtain ⟨text, htext, hlines⟩ := hne hempty
    have hnone : s.archive.rotationFile = none := by
      refine hsafe.resolve_right fun hno => hempty (List.eq_nil_iff_forall_not_mem.2 fun day hmem => ?_)
      exact hno day ((hmoved day).1 hmem)
    refine ⟨fun day hmem => ?_, fun day hmem => hkeep day (hs.processed day hmem), fun day hmem => ?_,
      fun text' htext' => ?_⟩
    · rcases List.mem_append.1 hmem with hmem | hmem
      · exact hkeep day (hs.moved day hmem)
      · obtain ⟨directory, hd, -⟩ := hfresh day hmem
        rw [hd]
        exact Option.some_ne_none _
    · rcases List.mem_append.1 hmem with hmem | hmem
      · rcases hs.noneForgotten day hmem with h | ⟨text', htext', -⟩
        · exact .inl h
        · rw [hnone] at htext'
          cases htext'
      · exact .inr ⟨text, htext, by rw [hlines]; exact hmem⟩
    · obtain rfl := Option.some.inj (htext.symm.trans htext')
      rw [hlines]
      refine ⟨hempty, fun day hmem => ⟨List.mem_append_right _ hmem, fun hp => ?_, hfresh day hmem⟩⟩
      obtain ⟨-, -, -, -, -, -, hday⟩ := (hmoved day).1 hmem
      exact hs.processed day hp hday

/-- The aggregation. -/
theorem ArchiveInv.combine (hs : ArchiveInv s) {listdir : Listdir}
    (h : archiveStep estimate s (.combine listdir) = some s') : ArchiveInv s' := by
  have hs' : s' = ⟨(honasDailyStateCombine estimate listdir s.archive).1, s.moved,
      s.processed ++ (honasDailyStateCombine estimate listdir s.archive).2⟩ :=
    (Option.some.inj h).symm
  rw [hs']
  cases hrot : s.archive.rotationFile with
  | none =>
    have he : honasDailyStateCombine estimate listdir s.archive = (s.archive, []) := by
      rw [honasDailyStateCombine, hrot]
    rw [he, List.append_nil]
    exact hs
  | some text =>
    obtain ⟨hdir, -, hnew, hall⟩ := foldl_combineDay estimate listdir (rotationLines text)
      (s.archive.directories, [])
    have he : honasDailyStateCombine estimate listdir s.archive =
        (⟨((rotationLines text).foldl (combineDay estimate listdir)
            (s.archive.directories, [])).1, none⟩,
          ((rotationLines text).foldl (combineDay estimate listdir) (s.archive.directories, [])).2) := by
      rw [honasDailyStateCombine, hrot]
    obtain ⟨-, hpending⟩ := hs.pending text hrot
    rw [he]
    refine ⟨fun day hmem => hdir day (hs.moved day hmem), fun day hmem => ?_, fun day hmem => ?_,
      fun _ h => nomatch h⟩
    · rcases List.mem_append.1 hmem with hmem | hmem
      · exact hdir day (hs.processed day hmem)
      · exact (hnew day hmem).resolve_left (List.not_mem_nil)
    · rcases hs.noneForgotten day hmem with hp | ⟨text', htext', hline⟩
      · exact .inl (List.mem_append_left _ hp)
      · obtain rfl := Option.some.inj (hrot.symm.trans htext')
        refine .inl (List.mem_append_right _ (hall (fun day' hmem' => .inr ?_) day hline))
        exact (hpending day' hmem').2.2

/-- A rotation that is not safe forgets a day. -/
theorem ArchiveInv.forgotten (hs : ArchiveInv s) {e : ArchiveEvent} (hbad : ¬ s.Safe e)
    (h : archiveStep estimate s e = some s') : ¬ s'.NoneForgotten := by
  cases e with
  | combine listdir => exact absurd trivial hbad
  | rotate stateInterval spool =>
    obtain ⟨⟨archive, moved⟩, hrot, rfl⟩ := Option.map_eq_some_iff.1 h
    obtain ⟨hmoved, -, -, -, hne⟩ := honasStateRotate_spec hrot
    obtain ⟨hsome, hnew⟩ := not_or.1 hbad
    obtain ⟨day, hday⟩ := not_forall_not.1 hnew
    obtain ⟨text, htext, hlines⟩ := hne (List.ne_nil_of_mem ((hmoved day).2 hday))
    obtain ⟨old, hold⟩ := Option.ne_none_iff_exists'.1 hsome
    obtain ⟨hlisted, hpending⟩ := hs.pending old hold
    obtain ⟨day', rest, hcons⟩ := List.exists_cons_of_ne_nil hlisted
    obtain ⟨hm, hp, directory, hd, -⟩ :=
      hpending day' (by rw [hcons]; exact List.mem_cons_self ..)
    intro hlaw
    rcases hlaw day' (List.mem_append_left _ hm) with hp' | ⟨text', htext', hline⟩
    · exact hp hp'
    · -- the listed day has a directory, so it is none of the new ones
      obtain rfl := Option.some.inj (htext.symm.trans htext')
      rw [hlines] at hline
      obtain ⟨-, -, -, -, -, -, hnone⟩ := (hmoved day').1 hline
      rw [hnone] at hd
      cases hd

end

/-- **No archived day is forgotten** in a run of whole rotations and aggregations exactly
    if no rotation moves a day while there is a rotation file. -/
theorem noDayForgotten_iff (estimate : ℚ → ℕ → BitVec 64)
    (directories : List Char → Option ArchiveDirectory) {events : List ArchiveEvent}
    {s : ArchiveRun}
    (hrun : events.foldlM (archiveStep estimate) ⟨⟨directories, none⟩, [], []⟩ = some s) :
    (∀ pre, pre <+: events → ∀ t,
      pre.foldlM (archiveStep estimate) ⟨⟨directories, none⟩, [], []⟩ = some t →
        t.NoneForgotten) ↔
      ∀ pre e, pre ++ [e] <+: events → ∀ t,
        pre.foldlM (archiveStep estimate) ⟨⟨directories, none⟩, [], []⟩ = some t → t.Safe e := by
  refine Run.law_iff (I := ArchiveInv) (fun _ hs => hs.noneForgotten) (fun t e t' ht hsafe h => ?_)
    (fun t e t' ht hbad h => ht.forgotten hbad h) ⟨?_, ?_, ?_, ?_⟩ hrun
  · cases e with
    | rotate stateInterval spool => exact ht.rotate hsafe h
    | combine listdir => exact ht.combine h
  · exact fun _ hmem => nomatch hmem
  · exact fun _ hmem => nomatch hmem
  · exact fun _ hmem => nomatch hmem
  · exact fun _ h => nomatch h

/-- Two rotations in a row. -/
def twoRotations : List ArchiveEvent :=
  [.rotate 86400 [("2018-05-01T00:00:00.hs".toList, [])],
    .rotate 86400 [("2018-05-02T00:00:00.hs".toList, [])]]

/-- After them only the second day is listed. -/
theorem twoRotations_run : ∃ s, twoRotations.foldlM (archiveStep fun _ _ => 0)
    ⟨⟨fun _ => none, none⟩, [], []⟩ = some s ∧
    (s.moved, s.processed, s.archive.rotationFile) =
      (["01-05-2018".toList, "02-05-2018".toList], [], some "02-05-2018\n".toList) := by
  have hrun : (twoRotations.foldlM (archiveStep fun _ _ => 0) ⟨⟨fun _ => none, none⟩, [], []⟩).map
      (fun s => (s.moved, s.processed, s.archive.rotationFile)) =
        some (["01-05-2018".toList, "02-05-2018".toList], [], some "02-05-2018\n".toList) := by
    decide +kernel
  exact Option.map_eq_some_iff.1 hrun

/-- The law fails for them, and the second one is not safe. -/
theorem noDayForgotten_twoRotations : ∃ s, twoRotations.foldlM (archiveStep fun _ _ => 0)
    ⟨⟨fun _ => none, none⟩, [], []⟩ = some s ∧
    ((∀ pre, pre <+: twoRotations → ∀ t,
      pre.foldlM (archiveStep fun _ _ => 0) ⟨⟨fun _ => none, none⟩, [], []⟩ = some t →
        t.NoneForgotten) ↔
      ∀ pre e, pre ++ [e] <+: twoRotations → ∀ t,
        pre.foldlM (archiveStep fun _ _ => 0) ⟨⟨fun _ => none, none⟩, [], []⟩ = some t →
          t.Safe e) := by
  obtain ⟨s, hrun, -⟩ := twoRotations_run
  exact ⟨s, hrun, noDayForgotten_iff (fun _ _ => 0) (fun _ => none) hrun⟩

/-- The first day is forgotten. -/
theorem not_noDayForgotten : ¬ ∀ (estimate : ℚ → ℕ → BitVec 64)
    (directories : List Char → Option ArchiveDirectory) (events : List ArchiveEvent)
    (s : ArchiveRun),
    events.foldlM (archiveStep estimate) ⟨⟨directories, none⟩, [], []⟩ = some s →
      s.NoneForgotten := by
  intro h
  obtain ⟨s, hrun, hs⟩ := twoRotations_run
  obtain ⟨hmoved, hs⟩ := Prod.mk.inj hs
  obtain ⟨hprocessed, hrotation⟩ := Prod.mk.inj hs
  have hlaw := h _ _ _ _ hrun "01-05-2018".toList (by rw [hmoved]; exact List.mem_cons_self ..)
  rw [hprocessed, hrotation] at hlaw
  rcases hlaw with hp | ⟨text, htext, hline⟩
  · cases hp
  · obtain rfl := Option.some.inj htext
    revert hline
    decide +kernel

end Honas
