/-
  From the collector to the search.

  When a period ends, the collector saves its state under the name of the end of the
  period.  The rotation moves the files of a completed day to the archive, and the
  aggregation combines them; the search loads a file and looks strings up.

  * `found_in_period`: what was decoded in a period is found in the file of the period.
  * `found_in_day`: and after both scripts in the file of its day.
-/
import Honas.Aggregate
import Honas.GatherLoopRuns
import Honas.PeriodName

namespace Honas

open Bits Calendar

/-! ## Looking up in a file -/

/-- A file is loaded, and a check for a digest counts at least as many filters as there are
    in a list, and marks these. -/
def Found (n : ℕ) (file : List Byte) (d : Digest) (filters : List ℕ) : Prop :=
  ∃ s, honasStateLoad (some file) = some (.ok s) ∧ ∀ hits, RoomFor n hits →
    ∃ count hits', honasStateCheckHostNameLookups s d.1 hits = some (count, hits') ∧
      filters.length ≤ count ∧ hits'.isSome = hits.isSome ∧
      ∀ set ∈ hits', ∀ f ∈ filters, bitsetBitIsSet set f = some true

section

variable {p q : StateParams}

/-- A loaded state keeps some tally. -/
theorem exists_represents {s : HonasState} (hs : Shaped p s) (hm : Mapped s) :
    ∃ a, Represents p a s ∧ ∀ f < p.n, ∀ b < 8 * p.len,
      (f, b) ∈ a.filters ↔ bitAt s.mmap (p.filterPos f b) = true := by
  choose hll regs hcount hregs using mapped_regs hs hm
  have hlt : s.header .numberOfRequests < 2 ^ 64 :=
    headerGet_lt (by rw [hs.length]; exact p.sizeofHeader_le) .numberOfRequests
  exact ⟨⟨{x | bitAt s.mmap (p.filterPos x.1 x.2) = true}, regs, s.header .numberOfRequests,
    s.times⟩, ⟨hs, fun _ _ _ _ => Iff.rfl, fun c => ⟨hll c, hcount c, hregs c⟩,
      (Nat.mod_eq_of_lt hlt).symm, rfl⟩, fun _ _ _ _ => Iff.rfl⟩

/-- What is set in the filters of a file is found. -/
theorem found_of_bits (hok : p.Ok) {file : List Byte} (hfile : StateFile p file) {d : Digest}
    {k : ℕ} {filters : List ℕ} (hsubset : IsSubset p.n k filters)
    (hbits : ∀ f ∈ filters, ∀ b ∈ p.offsets f d, bitAt file (p.filterPos f b) = true) :
    Found p.n file d filters := by
  obtain ⟨s, hload, rfl, hs, hm⟩ := load_spec hok hfile.length hfile.config
  obtain ⟨a, ha, hfilters⟩ := exists_represents hs hm
  refine ⟨s, hload, fun hits hroom => ?_⟩
  rw [hsubset.length]
  refine check_of_hits hok ha hsubset (fun f hf b hb => ?_) hroom
  rw [hfilters f (hsubset.lt f hf) b (hok.offsets_lt b hb)]
  exact hbits f hf b hb

/-- The bits of some registrations are set in the filters of a file. -/
def HoldsBits (sha256 : List Byte → Digest) (p : StateParams) (rs : List Registration)
    (file : List Byte) : Prop :=
  ∀ r ∈ rs, ∀ stored ∈ r.names, ∀ f ∈ p.filtersOf r.hash, ∀ b ∈ p.offsets f (sha256 stored.name),
    bitAt file (p.filterPos f b) = true

/-- Registrations are found in a file, in all filters of their clients. -/
def AllFound (sha256 : List Byte → Digest) (p : StateParams) (rs : List Registration)
    (file : List Byte) : Prop :=
  ∀ r ∈ rs, ∀ stored ∈ r.names, Found p.n file (sha256 stored.name) (p.filtersOf r.hash)

theorem HoldsBits.allFound {sha256 : List Byte → Digest} {rs : List Registration}
    {file : List Byte} (h : HoldsBits sha256 p rs file) (hp : p.Ok) (hq : q.Ok)
    (hpq : Compatible p q) (hfile : StateFile q file) : AllFound sha256 p rs file := by
  intro r hr stored hs
  obtain ⟨-, -, -, -, hsubset⟩ := hp.filtersOf_spec r.hash
  rw [hpq.filters] at hsubset ⊢
  refine found_of_bits hq hfile hsubset fun f hf b hb => ?_
  rw [← hpq.filterPos]
  rw [← hpq.offsets] at hb
  exact h r hr stored hs f hf b hb

end

/-! ## The file of a period -/

/-- `finalize_state`, whose child process links the file, unless there is one of this name. -/
def saveFile (estimate : ℚ → ℕ → BitVec 64) (spool : List (List Char × List Byte))
    (rotation : Rotation) : List (List Char × List Byte) :=
  Option.getD (do
    let name ← rotation.fileName
    let file ← closeState estimate rotation.finalized
    if spool.any fun entry => entry.1 = name then none else some (spool ++ [(name, file)])) spool

/-- The files that are saved. -/
def savedFiles (estimate : ℚ → ℕ → BitVec 64) (rotations : List Rotation) :
    List (List Char × List Byte) :=
  rotations.foldl (saveFile estimate) []

variable {Control : Type} {env : Externals Control} {R : TallyRelation}
  {carried : List Registration}

/-- The file of a period. -/
structure PeriodFile (env : Externals Control) (period : Period) (name : List Char)
    (file : List Byte) : Prop extends StateFile period.params file where
  name : period.rotation.fileName = some name
  ok : period.params.Ok
  bits : HoldsBits env.sha256 period.params (registrationsOf env period.subnets period.frames) file

/-- The state of a period is written with its bits. -/
theorem Period.Tallied.close (estimate : ℚ → ℕ → BitVec 64) {period : Period}
    (h : period.Tallied env onHeap []) {name : List Char} (hname : period.rotation.fileName = some name) :
    ∃ file, closeState estimate period.rotation.finalized = some file ∧
      PeriodFile env period name file := by
  obtain ⟨s', hpersist, hs'⟩ := persist_spec estimate h.ok h.keeps.1 h.keeps.2
  refine ⟨s'.mmap, by rw [closeState, hpersist]; rfl, ⟨hs'.length, hs'.config⟩, hname, h.ok, ?_⟩
  intro r hr stored hs f hf b hb
  obtain ⟨-, -, -, -, hsubset⟩ := h.ok.filtersOf_spec r.hash
  rw [hs'.bits _ (period.params.first_le_filterPos f b)]
  refine .inl ((h.keeps.1.bits f (hsubset.lt f hf) b (h.ok.offsets_lt b hb)).2 ?_)
  exact Tally.mem_ofRegistrations_filters.2 ⟨r, hr, hf, stored, hs, hb⟩

/-- The files of some periods. -/
structure Saved (env : Externals Control) (periods : List Period)
    (spool : List (List Char × List Byte)) : Prop where
  nodup : (spool.map Prod.fst).Nodup
  saved : ∀ period ∈ periods, ∃ entry ∈ spool, PeriodFile env period entry.1 entry.2
  source : ∀ entry ∈ spool, ∃ period ∈ periods, PeriodFile env period entry.1 entry.2

theorem Saved.perm {periods : List Period} {spool spool' : List (List Char × List Byte)}
    (h : Saved env periods spool) (hperm : spool'.Perm spool) : Saved env periods spool' where
  nodup := (hperm.map Prod.fst).nodup_iff.2 h.nodup
  saved period hperiod :=
    let ⟨entry, hentry, hfile⟩ := h.saved period hperiod
    ⟨entry, hperm.mem_iff.2 hentry, hfile⟩
  source entry hentry := h.source entry (hperm.mem_iff.1 hentry)

/-- **All periods are saved**, if their names differ. -/
theorem savedFiles_saved (estimate : ℚ → ℕ → BitVec 64) {periods : List Period}
    (htallied : ∀ period ∈ periods, period.Tallied env onHeap [])
    (hnames : ∀ period ∈ periods, period.rotation.fileName.isSome = true)
    (hdistinct : periods.Pairwise fun period period' =>
      period.rotation.fileName ≠ period'.rotation.fileName) :
    Saved env periods (savedFiles estimate (periods.map Period.rotation)) := by
  induction periods using List.reverseRecOn with
  | nil =>
    exact ⟨List.nodup_nil, fun _ h => absurd h List.not_mem_nil, fun _ h => absurd h List.not_mem_nil⟩
  | append_singleton periods period ih =>
    rw [List.forall_mem_append, List.forall_mem_singleton] at htallied hnames
    obtain ⟨hpairwise, -, hother⟩ := List.pairwise_append.1 hdistinct
    obtain ⟨hnodup, hsaved, hsource⟩ := ih htallied.1 hnames.1 hpairwise
    obtain ⟨name, hname⟩ := Option.isSome_iff_exists.1 hnames.2
    obtain ⟨file, hclose, hfile⟩ := htallied.2.close estimate hname
    have hnew : name ∉ (savedFiles estimate (periods.map Period.rotation)).map Prod.fst := by
      intro hmem
      obtain ⟨entry, hentry, rfl⟩ := List.mem_map.1 hmem
      obtain ⟨period', hperiod', hfile'⟩ := hsource entry hentry
      exact hother period' hperiod' period (List.mem_singleton_self _) (hfile'.name.trans hname.symm)
    have hfree : ¬(savedFiles estimate (periods.map Period.rotation)).any
        (fun entry => entry.1 = name) = true := by
      intro hany
      obtain ⟨entry, hentry, heq⟩ := List.any_eq_true.1 hany
      exact hnew (List.mem_map.2 ⟨entry, hentry, of_decide_eq_true heq⟩)
    have hstep : savedFiles estimate ((periods ++ [period]).map Period.rotation) =
        savedFiles estimate (periods.map Period.rotation) ++ [(name, file)] := by
      rw [savedFiles, List.map_append, List.foldl_append, ← savedFiles, List.map_singleton,
        List.foldl_cons, List.foldl_nil, saveFile, hname, hclose]
      exact congrArg (Option.getD · _) (if_neg hfree)
    rw [hstep]
    refine ⟨?_, fun period' hperiod' => ?_, fun entry hentry => ?_⟩
    · rw [List.map_append, List.map_singleton]
      refine List.nodup_append.2 ⟨hnodup, List.nodup_singleton _, fun x hx y hy => ?_⟩
      rw [List.mem_singleton.1 hy]
      rintro rfl
      exact hnew hx
    · rcases List.mem_append.1 hperiod' with hperiod' | hperiod'
      · obtain ⟨entry, hentry, hfile'⟩ := hsaved period' hperiod'
        exact ⟨entry, List.mem_append_left _ hentry, hfile'⟩
      · rw [List.mem_singleton.1 hperiod']
        exact ⟨_, List.mem_append_right _ (List.mem_singleton_self _), hfile⟩
    · rcases List.mem_append.1 hentry with hentry | hentry
      · obtain ⟨period', hperiod', hfile'⟩ := hsource entry hentry
        exact ⟨period', List.mem_append_left _ hperiod', hfile'⟩
      · rw [List.mem_singleton.1 hentry]
        exact ⟨period, List.mem_append_right _ (List.mem_singleton_self _), hfile⟩

/-! ## The periods of a run -/

/-- The clock readings of an event. -/
def LoopEvent.ClockOk : LoopEvent → Prop
  | .recheck now _ _ => ClockReading now
  | .accept _ | .conn _ _ _ | .instrumentation | .dryRunHourly _ | .dryRunDaily => True

/-- The periods of a run follow each other. -/
def GatherLoop.Collects (c : GatherLoop Control) : Prop :=
  Collecting (c.toCapture, c.periods.map Period.rotation)

theorem GatherLoop.Collects.step (hpeek : PeekLawful env.peek) {c c' : GatherLoop Control}
    {e : LoopEvent} (hsound : c.Sound env R carried) (h : c.Collects) (he : e.ClockOk)
    (hstep : c.Stepped env e c') : c'.Collects := by
  have htallied := (hsound.step hpeek hstep).tallied
  have hserving : ∃ p : StateParams, p.Ok ∧ Serving p c'.toCapture :=
    ⟨c'.params, htallied.ok, htallied.keeps.serving⟩
  by_cases hrecheck : e.IsRecheck
  · cases hstep with
    | wait => exact h
    | rotate hr =>
      have hcollecting := Collecting.recheck h he hr
      rw [GatherLoop.Collects, List.map_append]
      exact hcollecting
    | timer htimer hg => cases e <;> first | exact htimer.elim | exact hrecheck.elim
    | _ => exact hrecheck.elim
  · rw [GatherLoop.Collects, (hsound.step_samePeriod hstep hrecheck).2.1]
    exact Collecting.samePeriod h hserving (hsound.step_keepsPeriod hstep hrecheck)

theorem GatherLoop.Collects.run (hpeek : PeekLawful env.peek) {c c' : GatherLoop Control}
    {es : List LoopEvent} (hsound : c.Sound env R carried) (h : c.Collects) (hclock : ∀ e ∈ es, e.ClockOk)
    (hrun : c.run env es = some c') : c'.Collects := by
  have hinv : c'.Sound env R carried ∧ c'.Collects := by
    refine Run.inv_of_run (I := fun c => c.Sound env R carried ∧ c.Collects) (C := LoopEvent.ClockOk) ?_
      ⟨hsound, h⟩ hclock hrun
    rintro c₁ e c₂ ⟨hs₁, h₁⟩ he hstep
    have hstepped := GatherLoop.step_stepped hpeek hstep
    exact ⟨hs₁.step hpeek hstepped, h₁.step hpeek hs₁ he hstepped⟩
  exact hinv.2

/-- **The saved files** are those of the periods that have ended. -/
theorem GatherLoop.Collects.saved (estimate : ℚ → ℕ → BitVec 64) {c : GatherLoop Control}
    (hsound : c.Sound env onHeap []) (h : c.Collects)
    (hyear : ∀ period ∈ c.periods, period.rotation.finalized.header .periodEnd < 253402300800) :
    Saved env c.periods (savedFiles estimate (c.periods.map Period.rotation)) := by
  have hname : ∀ period ∈ c.periods, period.rotation.fileName =
      periodFileName (period.rotation.finalized.header .periodEnd) := fun period hperiod =>
    (h.sound _ (List.mem_map_of_mem hperiod)).fileName_eq
  have hsome : ∀ period ∈ c.periods, period.rotation.fileName.isSome = true := by
    intro period hperiod
    have := hyear period hperiod
    rw [hname period hperiod]
    exact periodFileName_isSome (by omega) (by omega)
  refine savedFiles_saved estimate (fun _ => hsound.tallied.period) hsome ?_
  refine (List.pairwise_map.1 h.increasing).imp_of_mem fun {period period'} hp hp' hlt heq => ?_
  obtain ⟨name, hn⟩ := Option.isSome_iff_exists.1 (hsome period hp)
  have hn' := heq.symm.trans hn
  rw [hname period hp] at hn
  rw [hname period' hp'] at hn'
  have := periodFileName_injective hn hn'
  omega

/-! ## The archive -/

theorem spoolFiles_spec : ∀ {spool : List (List Char × List Byte)} {files : List SpoolFile},
    spoolFiles spool = some files → files.map (fun file => (file.name, file.content)) = spool ∧
      ∀ file ∈ files, ∃ tm, stateTime file.name = some tm ∧ file.day = dayName tm
  | [], files, h => by
    cases h
    exact ⟨rfl, List.forall_mem_nil _⟩
  | entry :: spool, files, h => by
    rw [spoolFiles, List.mapM_cons] at h
    obtain ⟨first, hfirst, h⟩ := Option.bind_eq_some_iff.1 h
    obtain ⟨rest, hrest, h⟩ := Option.bind_eq_some_iff.1 h
    obtain ⟨tm, htm, rfl⟩ := Option.map_eq_some_iff.1 hfirst
    obtain rfl := Option.some.inj h
    obtain ⟨hmap, hdays⟩ := spoolFiles_spec hrest
    exact ⟨congrArg (entry :: ·) hmap, List.forall_mem_cons.2 ⟨⟨tm, htm, rfl⟩, hdays⟩⟩

/-- The directory of a day has the contents of its files. -/
theorem dayDirectory_files {files : List SpoolFile} (hnodup : (files.map SpoolFile.name).Nodup)
    {file : SpoolFile} (hfile : file ∈ files) :
    file.name ∈ (dayDirectory files file.day).listing ∧
      (dayDirectory files file.day).files file.name = some file.content := by
  have hmem : file ∈ files.filter (·.day = file.day) := List.mem_filter.2 ⟨hfile, by simp⟩
  refine ⟨List.mem_map_of_mem hmem, ?_⟩
  obtain ⟨found, hfound⟩ := Option.isSome_iff_exists.1
    (List.find?_isSome.2 ⟨file, hmem, by simp⟩ :
      ((files.filter (·.day = file.day)).find? (·.name = file.name)).isSome = true)
  have hname : found.name = file.name := by simpa using List.find?_some hfound
  have hfiles : found ∈ files := (List.mem_filter.1 (List.mem_of_find?_eq_some hfound)).1
  obtain rfl := List.inj_on_of_nodup_map hnodup hfiles hfile hname
  exact congrArg (Option.map SpoolFile.content) hfound

/-- No day is moved twice. -/
theorem archiveDays_nodup (files : List SpoolFile) (days : List (List Char))
    (directories : List Char → Option ArchiveDirectory) :
    (archiveDays files days directories).2.Nodup := by
  induction days using List.reverseRecOn with
  | nil => exact List.nodup_nil
  | append_singleton days day ih =>
    cases hday : (archiveDays files days directories).1 day with
    | some directory =>
      have hstep : archiveDays files (days ++ [day]) directories = archiveDays files days directories := by
        rw [archiveDays, List.foldl_append, ← archiveDays, List.foldl_cons, List.foldl_nil]
        generalize archiveDays files days directories = acc at hday ⊢
        obtain ⟨opened, moved⟩ := acc
        dsimp only at hday ⊢
        rw [hday]
      rw [hstep]
      exact ih
    | none =>
      have hstep : (archiveDays files (days ++ [day]) directories).2 =
          (archiveDays files days directories).2 ++ [day] := by
        rw [archiveDays, List.foldl_append, ← archiveDays, List.foldl_cons, List.foldl_nil]
        generalize archiveDays files days directories = acc at hday ⊢
        obtain ⟨opened, moved⟩ := acc
        dsimp only at hday ⊢
        rw [hday]
      rw [hstep]
      refine List.nodup_append.2 ⟨ih, List.nodup_singleton _, fun x hx y hy => ?_⟩
      rw [List.mem_singleton.1 hy]
      rintro rfl
      rw [(archiveDays_spec files days directories _).2, if_pos hx] at hday
      cases hday

/-- The directories that the rotation makes. -/
theorem honasStateRotate_directory {stateInterval : ℤ} {spool : List (List Char × List Byte)}
    {archive archive' : Archive} {moved : List (List Char)}
    (h : honasStateRotate stateInterval spool archive = some (archive', moved)) :
    ∃ files, spoolFiles spool = some files ∧ moved.Nodup ∧
      ∀ day ∈ moved, archive'.directories day = some (dayDirectory files day) := by
  rw [honasStateRotate] at h
  obtain ⟨required, -, h⟩ := Option.bind_eq_some_iff.1 h
  obtain ⟨files, hfiles, h⟩ := Option.bind_eq_some_iff.1 h
  set days := (completedStates files).1.filter fun day => required ≤ (completedStates files).2 day
  obtain ⟨harchive, hmoved⟩ := Prod.mk.inj (Option.some.inj h)
  have hmoved' : (archiveDays files days archive.directories).2 = moved := hmoved
  have hdirectories : archive'.directories = (archiveDays files days archive.directories).1 := by
    rw [← harchive]
    rfl
  refine ⟨files, hfiles, hmoved' ▸ archiveDays_nodup _ _ _, fun day hday => ?_⟩
  rw [hdirectories, (archiveDays_spec files days archive.directories day).2, hmoved', if_pos hday]

/-- The aggregation combines the files of each line once. -/
theorem foldl_combineDay_directory (estimate : ℚ → ℕ → BitVec 64) (listdir : Listdir)
    {day dst : List Char} {directory : ArchiveDirectory} {files : Directory}
    (hmerge : mergeDirectory estimate (listdir.order directory.listing) directory.files =
      some (dst, files)) : ∀ {lines : List (List Char)} {acc : CombinedDays}, lines.Nodup →
      day ∈ lines → acc.1 day = some directory →
      ∃ directory', (lines.foldl (combineDay estimate listdir) acc).1 day = some directory' ∧
        directory'.files = files
  | line :: lines, acc, hnodup, hmem, hacc => by
    obtain ⟨hline, hnodup⟩ := List.nodup_cons.1 hnodup
    rw [List.foldl_cons]
    rcases List.mem_cons.1 hmem with rfl | hmem
    · -- the other lines leave the directory as it is
      have hother : ∀ {lines : List (List Char)} (acc : CombinedDays), day ∉ lines →
          (lines.foldl (combineDay estimate listdir) acc).1 day = acc.1 day := by
        intro lines
        induction lines with
        | nil => exact fun _ _ => rfl
        | cons line lines ih =>
          intro acc hno
          rw [List.mem_cons, not_or] at hno
          rw [List.foldl_cons, ih _ hno.2, (combineDay_spec estimate listdir acc line).other day hno.1]
      rw [hother _ hline, combineDay, hacc]
      simp only [hmerge]
      exact ⟨_, Function.update_self .., rfl⟩
    · have hne : day ≠ line := fun h => hline (h ▸ hmem)
      refine foldl_combineDay_directory estimate listdir hmerge hnodup hmem ?_
      rw [(combineDay_spec estimate listdir acc line).other day hne, hacc]

/-! ## The file of a day -/

/-- Combining keeps a state file. -/
theorem foldl_honasCombine_stateFile (estimate : ℚ → ℕ → BitVec 64) {p : StateParams} (hp : p.Ok)
    {dst : List Char} : ∀ {names : List (List Char)} {files : Directory} {m : List Byte},
    files dst = some m → StateFile p m →
    (∀ name ∈ names, name ≠ dst ∧ CombinableFile p (files name)) →
    ∃ file, names.foldl (honasCombine estimate dst) files dst = some file ∧ StateFile p file
  | [], _, m, hdst, hm, _ => ⟨m, hdst, hm⟩
  | name :: names, files, m, hdst, hm, hnames => by
    rw [List.forall_mem_cons] at hnames
    obtain ⟨file, he, hfile, -⟩ := honasCombine_spec estimate hp hdst hm hnames.1.2
    rw [List.foldl_cons, he]
    refine foldl_honasCombine_stateFile estimate hp (Function.update_self ..) hfile
      fun name' hmem => ⟨(hnames.2 name' hmem).1, ?_⟩
    rw [Function.update_of_ne (hnames.2 name' hmem).1]
    exact (hnames.2 name' hmem).2

/-- **The combined file** is a state file, with the bits of all files. -/
theorem mergeDirectory_stateFile (estimate : ℚ → ℕ → BitVec 64) {p : StateParams}
    {listing : List (List Char)} {files : Directory} (hne : listing ≠ [])
    (hnames : ∀ name ∈ listing, (stateTime name).isSome)
    (hfiles : ∀ name ∈ listing, CombinableFile p (files name)) :
    ∃ name time merged file q, name ∈ listing ∧ stateTime name = some time ∧
      mergeDirectory estimate listing files = some (destinationName time, merged) ∧
      merged (destinationName time) = some file ∧ q.Ok ∧ Compatible p q ∧ StateFile q file ∧
      ∀ f < p.n, ∀ b < 8 * p.len, (bitAt file (p.filterPos f b) = true ↔
        ∃ name ∈ listing, bitAt ((files name).getD []) (p.filterPos f b) = true) := by
  obtain ⟨first, rest, rfl⟩ := List.exists_cons_of_ne_nil hne
  obtain ⟨time, htime⟩ := Option.isSome_iff_exists.1 (hnames first List.mem_cons_self)
  obtain ⟨q, m, hq, hpq, hm, hfile⟩ := hfiles first List.mem_cons_self
  obtain ⟨dst, merged, file, hmerge, hmerged, -, hbits⟩ := mergeDirectory_spec estimate hnames hfiles
  have hother : ∀ name ∈ first :: rest, name ≠ destinationName time := by
    intro name hmem
    obtain ⟨time', htime'⟩ := Option.isSome_iff_exists.1 (hnames name hmem)
    exact destinationName_ne htime'
  have hmerge' := hmerge
  rw [mergeDirectory, List.head?_cons] at hmerge'
  simp only [Option.bind_eq_bind, Option.bind_some, htime] at hmerge'
  obtain ⟨rfl, rfl⟩ := Prod.mk.inj (Option.some.inj hmerge')
  have hcopied : Function.update files (destinationName time) (files first) (destinationName time) =
      some m := (Function.update_self ..).trans hm
  have hsources : ∀ name ∈ first :: rest, name ≠ destinationName time ∧ CombinableFile q
      (Function.update files (destinationName time) (files first) name) := by
    intro name hmem
    obtain ⟨q', m', hq', hpq', hm', hstate⟩ := hfiles name hmem
    exact ⟨hother name hmem, q', m', hq', hpq.symm.trans hpq',
      (Function.update_of_ne (hother name hmem) _ _).trans hm', hstate⟩
  obtain ⟨file', hfile', hstate⟩ :=
    foldl_honasCombine_stateFile estimate hq hcopied hfile hsources
  obtain rfl := Option.some.inj (hmerged.symm.trans hfile')
  exact ⟨first, time, _, file, q, List.mem_cons_self, htime, hmerge, hmerged, hq, hpq, hstate, hbits⟩

/-- The day on which a period ends, as the rotation names it, and the name of its combined
    file. -/
def Period.day (period : Period) : List Char :=
  dayName (gmtime (period.rotation.finalized.header .periodEnd))

def Period.dayFile (period : Period) : List Char :=
  destinationName (gmtime (period.rotation.finalized.header .periodEnd))

theorem destinationName_of_dayName {s t : ℤ} (hs : 0 ≤ s ∧ s < 253402300800)
    (ht : 0 ≤ t ∧ t < 253402300800) (h : dayName (gmtime s) = dayName (gmtime t)) :
    destinationName (gmtime s) = destinationName (gmtime t) := by
  obtain ⟨hyear, -⟩ := gmtime_year_le hs.1 hs.2
  obtain ⟨hyear', -⟩ := gmtime_year_le ht.1 ht.2
  obtain ⟨hmon, hmday, -⟩ := gmtime_ranges s
  obtain ⟨hmon', hmday', -⟩ := gmtime_ranges t
  obtain ⟨eyear, emon, emday⟩ := dayName_injective (by omega) (by omega) (by omega) h
  rw [destinationName, destinationName, eyear, emon, emday]

/-! ## The results -/

/-- **What was decoded is found in the file of its period.** -/
theorem found_in_period (hpeek : PeekLawful env.peek) {options : Options} {config : GatherConfig}
    {now : BitVec 64} (hnow : ClockReading now) {s : HonasState} (hc : createState config now = some s)
    {es : List LoopEvent} (hclock : ∀ e ∈ es, e.ClockOk) {c : GatherLoop Control}
    (hrun : (GatherLoop.start options config.toStateParams s).run env es = some c)
    (hyear : ∀ period ∈ c.periods, period.rotation.finalized.header .periodEnd < 253402300800)
    (estimate : ℚ → ℕ → BitVec 64) :
    ((savedFiles estimate (c.periods.map Period.rotation)).map Prod.fst).Nodup ∧
    ∀ period ∈ c.periods, ∃ name file, period.rotation.fileName = some name ∧
      (name, file) ∈ savedFiles estimate (c.periods.map Period.rotation) ∧
      AllFound env.sha256 period.params (registrationsOf env period.subnets period.frames) file := by
  have hstart : (GatherLoop.start options config.toStateParams s).Sound env onHeap [] :=
    sound_start options hc
  have hcollects := GatherLoop.Collects.run hpeek hstart (collecting_start options hnow hc) hclock hrun
  have hsaved := hcollects.saved estimate (hstart.run hpeek hrun) hyear
  refine ⟨hsaved.nodup, fun period hperiod => ?_⟩
  obtain ⟨⟨name, file⟩, hentry, hfile⟩ := hsaved.saved period hperiod
  exact ⟨name, file, hfile.name, hentry,
    hfile.bits.allFound hfile.ok hfile.ok (.refl _) hfile.toStateFile⟩

theorem twoHours_clockOk : ∀ e ∈ twoHours, e.ClockOk :=
  List.forall_mem_append.2 ⟨List.forall_mem_cons.2 ⟨trivial, List.forall_mem_cons.2 ⟨trivial,
    List.forall_mem_cons.2 ⟨trivial, List.forall_mem_cons.2 ⟨trivial,
      List.forall_mem_singleton.2 trivial⟩⟩⟩⟩, List.forall_mem_cons.2 ⟨clockReading_hourly.2,
    List.forall_mem_cons.2 ⟨trivial, List.forall_mem_singleton.2 trivial⟩⟩⟩

theorem found_in_period_twoHours : ∃ (c : GatherLoop Unit) (period : Period) (name : List Char)
    (file : List Byte), c.periods = [period] ∧
    (name, file) ∈ savedFiles (fun _ _ => 0) (c.periods.map Period.rotation) ∧
    AllFound oneQuery.sha256 period.params
      (registrationsOf oneQuery period.subnets period.frames) file := by
  obtain ⟨s, c, period, hc, hrun, hperiods, hend, -⟩ := exists_run_twoHours
  obtain ⟨h5, -⟩ := clockReading_hourly
  have hyear : ∀ period ∈ c.periods,
      period.rotation.finalized.header .periodEnd < 253402300800 := by
    rw [hperiods]
    exact List.forall_mem_singleton.2 (hend.trans_lt (by decide))
  obtain ⟨-, hfound⟩ := found_in_period oneBlock_lawful h5 hc twoHours_clockOk hrun hyear
    fun _ _ => 0
  obtain ⟨name, file, -, hentry, hall⟩ := hfound period (hperiods ▸ List.mem_singleton_self _)
  exact ⟨c, period, name, file, hperiods, hentry, hall⟩

/-- **What was decoded is found in the file of its day.** -/
theorem found_in_day (hpeek : PeekLawful env.peek) {options : Options} {config : GatherConfig}
    {now : BitVec 64} (hnow : ClockReading now) {s : HonasState} (hc : createState config now = some s)
    {es : List LoopEvent} (hclock : ∀ e ∈ es, e.ClockOk) {c : GatherLoop Control}
    (hrun : (GatherLoop.start options config.toStateParams s).run env es = some c)
    (hyear : ∀ period ∈ c.periods, period.rotation.finalized.header .periodEnd < 253402300800)
    (estimate : ℚ → ℕ → BitVec 64) {spool : List (List Char × List Byte)}
    (hspool : spool.Perm (savedFiles estimate (c.periods.map Period.rotation))) {stateInterval : ℤ}
    {archive archived : Archive} {moved : List (List Char)}
    (hrotate : honasStateRotate stateInterval spool archive = some (archived, moved))
    (listdir : Listdir) {day : List Char} (hday : day ∈ moved) {p : StateParams}
    (hcompatible : ∀ period ∈ c.periods, period.day = day → Compatible p period.params) :
    ∃ directory, (honasDailyStateCombine estimate listdir archived).1.directories day =
        some directory ∧
      ∀ period ∈ c.periods, period.day = day → ∃ file, directory.files period.dayFile = some file ∧
        AllFound env.sha256 period.params (registrationsOf env period.subnets period.frames)
          file := by
  have hstart : (GatherLoop.start options config.toStateParams s).Sound env onHeap [] :=
    sound_start options hc
  have hcollects := GatherLoop.Collects.run hpeek hstart (collecting_start options hnow hc) hclock hrun
  have hsaved := (hcollects.saved estimate (hstart.run hpeek hrun) hyear).perm hspool
  obtain ⟨files, hfiles, hnodup, hdirectories⟩ := honasStateRotate_directory hrotate
  obtain ⟨hmap, hdays⟩ := spoolFiles_spec hfiles
  have hnames : (files.map SpoolFile.name).Nodup := by
    have hfst : files.map SpoolFile.name = spool.map Prod.fst := by
      rw [← hmap, List.map_map]
      rfl
    rw [hfst]
    exact hsaved.nodup
  -- the time in the name of a file of a period
  have htime : ∀ period ∈ c.periods, ∀ {name file}, PeriodFile env period name file →
      stateTime name = some (gmtime (period.rotation.finalized.header .periodEnd)) := by
    intro period hperiod name file hfile
    have := hyear period hperiod
    refine stateTime_of_periodFileName (by omega) (by omega) ?_
    rw [← (hcollects.sound _ (List.mem_map_of_mem hperiod)).fileName_eq]
    exact hfile.name
  -- the files of the spool directory are those of the periods
  have hfile : ∀ period ∈ c.periods, ∃ file ∈ files,
      PeriodFile env period file.name file.content ∧ file.day = period.day := by
    intro period hperiod
    obtain ⟨entry, hentry, hpf⟩ := hsaved.saved period hperiod
    rw [← hmap] at hentry
    obtain ⟨file, hmem, rfl⟩ := List.mem_map.1 hentry
    obtain ⟨tm, htm, hd⟩ := hdays file hmem
    exact ⟨file, hmem, hpf, by rw [hd, Period.day, Option.some.inj (htm.symm.trans
      (htime period hperiod hpf))]⟩
  have hperiod : ∀ file ∈ files, ∃ period ∈ c.periods,
      PeriodFile env period file.name file.content ∧ file.day = period.day := by
    intro file hmem
    have hentry : (file.name, file.content) ∈ spool := hmap ▸ List.mem_map_of_mem hmem
    obtain ⟨period, hp, hpf⟩ := hsaved.source _ hentry
    obtain ⟨tm, htm, hd⟩ := hdays file hmem
    exact ⟨period, hp, hpf, by rw [hd, Period.day, Option.some.inj (htm.symm.trans
      (htime period hp hpf))]⟩
  obtain ⟨-, hfresh, -, -, hrotation⟩ := honasStateRotate_spec hrotate
  obtain ⟨directory, hdirectory, hfresh⟩ := hfresh day hday
  obtain rfl : dayDirectory files day = directory :=
    Option.some.inj ((hdirectories day hday).symm.trans hdirectory)
  obtain ⟨text, htext, hlines⟩ := hrotation (List.ne_nil_of_mem hday)
  have hperm := listdir.perm (dayDirectory files day).listing
  have hlisting : ∀ name ∈ listdir.order (dayDirectory files day).listing,
      ∃ file ∈ files, file.name = name ∧ file.day = day := by
    intro name hname
    obtain ⟨file, hfilter, rfl⟩ := List.mem_map.1 (hperm.mem_iff.1 hname)
    obtain ⟨hmem, hd⟩ := List.mem_filter.1 hfilter
    exact ⟨file, hmem, rfl, of_decide_eq_true hd⟩
  have hcombinable : ∀ name ∈ listdir.order (dayDirectory files day).listing,
      CombinableFile p ((dayDirectory files day).files name) := by
    intro name hname
    obtain ⟨file, hmem, rfl, rfl⟩ := hlisting name hname
    obtain ⟨period, hp, hpf, hd⟩ := hperiod file hmem
    exact ⟨period.params, file.content, hpf.ok, hcompatible period hp hd.symm,
      (dayDirectory_files hnames hmem).2, hpf.toStateFile⟩
  obtain ⟨name, time, merged, file, q, hname, htm, hmerge, hmerged, hq, hpq, hstate, hbits⟩ :=
    mergeDirectory_stateFile estimate (fun hnil => hfresh.listing_ne (List.nil_perm.1 (hnil ▸ hperm)))
      (fun name hmem => hfresh.stateTime name (hperm.mem_iff.1 hmem)) hcombinable
  have hfirst : ((archived.directories, []) : CombinedDays).1 day = some (dayDirectory files day) :=
    hdirectories day hday
  obtain ⟨directory', hcombined, hmerged'⟩ :=
    foldl_combineDay_directory estimate listdir hmerge hnodup hday hfirst
  refine ⟨directory', ?_, fun period hp hd => ⟨file, ?_, ?_⟩⟩
  · rw [honasDailyStateCombine, htext]
    dsimp only
    rw [hlines]
    exact hcombined
  · -- the destination is named after the day
    obtain ⟨source, hmem, rfl, hsource⟩ := hlisting name hname
    obtain ⟨period', hp', hpf', hd'⟩ := hperiod source hmem
    have h := hyear period hp
    have h' := hyear period' hp'
    have hdst : period.dayFile = destinationName time := by
      rw [Option.some.inj (htm.symm.trans (htime period' hp' hpf'))]
      exact destinationName_of_dayName ⟨by omega, by omega⟩ ⟨by omega, by omega⟩
        (hd.trans (hsource.symm.trans hd'))
    rw [hmerged', hdst]
    exact hmerged
  · obtain ⟨source, hmem, hpf, hsource⟩ := hfile period hp
    have hsame := hcompatible period hp hd
    refine HoldsBits.allFound (fun r hr stored hs f hf b hb => ?_) hpf.ok hq (hsame.symm.trans hpq)
      hstate
    obtain ⟨-, -, -, -, hsubset⟩ := hpf.ok.filtersOf_spec r.hash
    have hbit := hpf.bits r hr stored hs f hf b hb
    rw [← hsame.filterPos] at hbit ⊢
    rw [hbits f (hsame.filters ▸ hsubset.lt f hf) b (hsame.len ▸ hpf.ok.offsets_lt b hb)]
    obtain ⟨hlisted, hcontent⟩ := dayDirectory_files hnames hmem
    rw [hsource, hd] at hlisted hcontent
    exact ⟨source.name, hperm.mem_iff.2 hlisted, by rw [hcontent]; exact hbit⟩

theorem honasStateRotate_oneFile {name : List Char} {tm : Tm} (htime : stateTime name = some tm)
    (file : List Byte) : ∃ archived moved,
      honasStateRotate 86400 [(name, file)] ⟨fun _ => none, none⟩ = some (archived, moved) ∧
      dayName tm ∈ moved := by
  have hfiles : spoolFiles [(name, file)] = some [⟨name, file, dayName tm⟩] := by
    simp only [spoolFiles, List.mapM_cons, List.mapM_nil, htime, Option.map_some]
    rfl
  obtain ⟨archived, moved, h⟩ : ∃ archived moved,
      honasStateRotate 86400 [(name, file)] ⟨fun _ => none, none⟩ = some (archived, moved) := by
    rw [honasStateRotate, hfiles]
    exact ⟨_, _, rfl⟩
  refine ⟨archived, moved, h, ((honasStateRotate_spec h).1 _).2 ⟨1, _, rfl, hfiles, ?_, ?_, rfl⟩⟩
  · exact ⟨_, List.mem_singleton_self _, rfl⟩
  · simp

/-- One file completes the day if the interval of the states is a day. -/
theorem found_in_day_twoHours : ∃ (c : GatherLoop Unit) (period : Period) (archived : Archive)
    (moved : List (List Char)) (directory : ArchiveDirectory) (file : List Byte),
    c.periods = [period] ∧
    honasStateRotate 86400 (savedFiles (fun _ _ => 0) (c.periods.map Period.rotation))
      ⟨fun _ => none, none⟩ = some (archived, moved) ∧
    (honasDailyStateCombine (fun _ _ => 0) ⟨id, List.Perm.refl⟩ archived).1.directories period.day =
      some directory ∧ directory.files period.dayFile = some file ∧
    AllFound oneQuery.sha256 period.params
      (registrationsOf oneQuery period.subnets period.frames) file := by
  obtain ⟨s, c, period, hc, hrun, hperiods, hend, -⟩ := exists_run_twoHours
  obtain ⟨h5, -⟩ := clockReading_hourly
  have hyear : ∀ period ∈ c.periods,
      period.rotation.finalized.header .periodEnd < 253402300800 := by
    rw [hperiods]
    exact List.forall_mem_singleton.2 (hend.trans_lt (by decide))
  have hstart : (GatherLoop.start noOptions hourlyConfig.toStateParams s).Sound oneQuery onHeap [] :=
    sound_start noOptions hc
  have hcollects := GatherLoop.Collects.run oneBlock_lawful hstart (collecting_start noOptions h5 hc)
    twoHours_clockOk hrun
  have hmem : period ∈ c.periods := hperiods ▸ List.mem_singleton_self _
  have hname := (hcollects.sound _ (List.mem_map_of_mem hmem)).fileName_eq
  obtain ⟨name, hn⟩ := Option.isSome_iff_exists.1
    (periodFileName_isSome (t := period.rotation.finalized.header .periodEnd) (by omega) (by omega))
  obtain ⟨file, hclose, -⟩ := ((hstart.run oneBlock_lawful hrun).tallied.period hmem).close
    (fun _ _ => 0) (hname.trans hn)
  have hsaved : savedFiles (fun _ _ => 0) (c.periods.map Period.rotation) = [(name, file)] := by
    rw [hperiods, List.map_singleton, savedFiles, List.foldl_cons, List.foldl_nil, saveFile,
      hname.trans hn, hclose]
    rfl
  obtain ⟨archived, moved, hrotate, hday⟩ := honasStateRotate_oneFile
    (stateTime_of_periodFileName (by omega) (by omega) hn) file
  rw [← hsaved] at hrotate
  obtain ⟨directory, hdirectory, hfound⟩ := found_in_day oneBlock_lawful h5 hc twoHours_clockOk hrun
    hyear (fun _ _ => 0) (.refl _) hrotate ⟨id, List.Perm.refl⟩ hday
    (p := period.params) (by
      rw [hperiods]
      exact List.forall_mem_singleton.2 fun _ => .refl _)
  obtain ⟨combined, hcombined, hall⟩ := hfound period hmem rfl
  exact ⟨c, period, archived, moved, directory, combined, hperiods, hrotate, hdirectory, hcombined, hall⟩

end Honas
