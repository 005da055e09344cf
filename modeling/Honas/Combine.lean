/-
  `honas-combine` (`main` in `src/bin/honas_combine.c`, with the writing of the file in
  `honas_state_persist`).

  A run of the program is the sequence of its system calls with their results.  Any of
  them may fail, and the program may be killed between two of them: then its run is a
  prefix of a longer one.  The files are mapped privately, so until the old name is
  removed nothing is changed; the new file has no name until it is complete.

  * `combine_allOrNothing_iff`: the destination name refers to the original file or to
    the complete new one exactly if the program got to `linkat`, once it has removed
    the name.
-/
import Honas.StateLoaded

namespace Honas

open Bits

/-! ## The combined file -/

/-- Loading a state file in `main`: `none` when the program ends; `some none` when the
    file is no state file, of which `main` does not take notice. -/
def loadFile (file : Option (List Byte)) : Option (Option HonasState) :=
  match honasStateLoad file with
  | none => none
  | some (.error code) => if code = -1 then none else some none
  | some (.ok state) => some (some state)

/-- Combining in `main`: the target, whether or not the states could be combined.  The
    header of a state that was not loaded is a null pointer. -/
def combineStates (dst src : Option HonasState) : Option HonasState := do
  let target ← dst
  let source ← src
  let (_, target, _) ← honasStateAggregateCombine target source
  some target

/-- The state that is persisted, from the contents of the two files. -/
def combinedState (dstFile srcFile : Option (List Byte)) : Option HonasState := do
  let dst ← loadFile dstFile
  let src ← loadFile srcFile
  combineStates dst src

/-- The complete combined file; if the states could not be combined, the file of the target. -/
def combinedFile (estimate : ℚ → ℕ → BitVec 64) (dstFile srcFile : Option (List Byte)) :
    Option (List Byte) := do
  let state ← combinedState dstFile srcFile
  let (_, file) ← honasStatePersist estimate state
  some file

/-! ## System calls -/

/-- A system call, or for a state file those that load it, and whether it succeeds;
    `write` may write less than it is given. -/
inductive SysCall where
  | load (ok : Bool)
  | access (ok : Bool)
  | unlink (ok : Bool)
  | openTmpfile (ok : Bool)
  | fallocate (ok : Bool)
  | write (written : Option ℕ)
  | linkat (ok : Bool)
  | close (ok : Bool)
deriving DecidableEq

/-- The next system call, with what is in the memory of the process and in the file
    without a name. -/
inductive CombineStage where
  | loadDst
  | loadSrc (dst : Option HonasState)
  | access (state : HonasState)
  | unlink (state : HonasState)
  | openTmpfile (state : HonasState)
  | fallocate (file : List Byte)
  | write (file temp : List Byte) (totalWritten : ℕ)
  | linkat (temp : List Byte)
  | close
  | exited

variable {Name : Type} [DecidableEq Name]

/-- A process that combines files, and the files by their names. -/
structure Combine (Name : Type) where
  stage : CombineStage
  files : Name → Option (List Byte)

/-- The loop `while (total_written < state->size)`. -/
def writeLoop (file temp : List Byte) (totalWritten : ℕ) : CombineStage :=
  if totalWritten < file.length then .write file temp totalWritten else .linkat temp

/-- One system call; `none` if it is not the next one, or cannot have that result. -/
def combineStep (estimate : ℚ → ℕ → BitVec 64) (dst src : Name) (c : Combine Name)
    (call : SysCall) : Option (Combine Name) :=
  match c.stage, call with
  | .loadDst, .load ok =>
    match loadFile (if ok then c.files dst else none) with
    | none => some { c with stage := .exited }
    | some state => some { c with stage := .loadSrc state }
  | .loadSrc dstState, .load ok =>
    match (loadFile (if ok then c.files src else none)).bind (combineStates dstState) with
    | none => some { c with stage := .exited }
    | some state => some { c with stage := .access state }
  | .access state, .access ok =>
    if ok then some { c with stage := .unlink state }
    else some { c with stage := .openTmpfile state }
  -- the result of `unlink` is not looked at
  | .unlink state, .unlink ok =>
    if ok then some ⟨.openTmpfile state, Function.update c.files dst none⟩
    else some { c with stage := .openTmpfile state }
  | .openTmpfile state, .openTmpfile ok =>
    match honasStatePersist estimate state with
    | none => none
    | some (_, file) =>
      if ok then some { c with stage := .fallocate file } else some { c with stage := .exited }
  | .fallocate file, .fallocate ok =>
    if ok then some { c with stage := writeLoop file (List.replicate file.length 0) 0 }
    else some { c with stage := .exited }
  | .write file temp totalWritten, .write written =>
    match written with
    | none => some { c with stage := .exited }
    | some n =>
      if n ≤ file.length - totalWritten then
        some { c with
          stage := writeLoop file (splice temp totalWritten (slice file totalWritten n))
            (totalWritten + n) }
      else none
  -- there must be no file of that name
  | .linkat temp, .linkat ok =>
    if ok then
      if c.files dst = none then some ⟨.close, Function.update c.files dst (some temp)⟩ else none
    else some { c with stage := .exited }
  | .close, .close _ => some { c with stage := .exited }
  | _, _ => none

/-! ## What a run keeps -/

section

variable {estimate : ℚ → ℕ → BitVec 64} {dst src : Name} {files₀ files : Name → Option (List Byte)}

/-- What the process has at each stage, if it started with the files `files₀`. -/
def CombineStage.Holds (estimate : ℚ → ℕ → BitVec 64) (dst src : Name)
    (files₀ files : Name → Option (List Byte)) : CombineStage → Prop
  | .loadDst => files = files₀
  | .loadSrc state => files = files₀ ∧ loadFile (files₀ dst) = some state
  | .access state | .unlink state =>
    files = files₀ ∧ combinedState (files₀ dst) (files₀ src) = some state
  | .openTmpfile state => combinedState (files₀ dst) (files₀ src) = some state
  | .fallocate file => combinedFile estimate (files₀ dst) (files₀ src) = some file
  | .write file temp totalWritten =>
    combinedFile estimate (files₀ dst) (files₀ src) = some file ∧ totalWritten ≤ file.length ∧
      temp.length = file.length ∧ temp.take totalWritten = file.take totalWritten
  | .linkat temp => combinedFile estimate (files₀ dst) (files₀ src) = some temp
  | .close | .exited => True

/-- Which calls change the files. -/
theorem combineStep_files {c c' : Combine Name} {call : SysCall}
    (h : combineStep estimate dst src c call = some c') :
    (call ≠ .unlink true ∧ call ≠ .linkat true ∧ c'.files = c.files ∧
      (c.stage = .close ∨ c.stage = .exited → c'.stage = .exited)) ∨
    (∃ state, call = .unlink true ∧ c.stage = .unlink state ∧
      c' = ⟨.openTmpfile state, Function.update c.files dst none⟩) ∨
    ∃ temp, call = .linkat true ∧ c.stage = .linkat temp ∧ c.files dst = none ∧
      c' = ⟨.close, Function.update c.files dst (some temp)⟩ := by
  revert h
  fun_cases combineStep estimate dst src c call <;> intro h <;> cases h
  case case7 state hstage => exact .inr (.inl ⟨state, rfl, hstage, rfl⟩)
  case case17 temp hstage hno => exact .inr (.inr ⟨temp, rfl, hstage, hno, rfl⟩)
  all_goals refine .inl ⟨?_, ?_, rfl, ?_⟩ <;> simp_all

/-- A file that is loaded is there, and no call fails. -/
theorem loadFile_ok {ok : Bool} {file : Option (List Byte)} {state : Option HonasState}
    (h : loadFile (if ok then file else none) = some state) : loadFile file = some state := by
  cases ok
  · cases h
  · exact h

omit [DecidableEq Name] in
/-- When the loop ends, the file without a name is complete. -/
theorem holds_writeLoop {file temp : List Byte} {totalWritten : ℕ}
    (hfile : combinedFile estimate (files₀ dst) (files₀ src) = some file)
    (hle : totalWritten ≤ file.length) (hlen : temp.length = file.length)
    (htake : temp.take totalWritten = file.take totalWritten) :
    (writeLoop file temp totalWritten).Holds estimate dst src files₀ files := by
  unfold writeLoop
  split_ifs with hlt
  · exact ⟨hfile, hle, hlen, htake⟩
  · have hall : temp = file := by
      rwa [List.take_of_length_le (by omega), List.take_of_length_le (by omega)] at htake
    rw [hall]
    exact hfile

/-- Writing the next bytes of a file. -/
theorem take_splice_slice {file temp : List Byte} {total n : ℕ} (hlen : temp.length = file.length)
    (htake : temp.take total = file.take total) (hn : total + n ≤ file.length) :
    (splice temp total (slice file total n)).take (total + n) = file.take (total + n) := by
  have hslice := length_slice hn
  have htl : (temp.take total).length = total := by rw [List.length_take]; omega
  rw [splice, hslice, List.take_left' (by rw [List.length_append, htl, hslice]), htake, slice,
    List.take_add]

/-- **What a call keeps.** -/
theorem combineStep_holds {c c' : Combine Name} {call : SysCall}
    (hc : c.stage.Holds estimate dst src files₀ c.files)
    (h : combineStep estimate dst src c call = some c') :
    c'.stage.Holds estimate dst src files₀ c'.files := by
  revert h
  fun_cases combineStep estimate dst src c call <;> intro h <;> cases h <;>
    simp only [*, CombineStage.Holds] at hc ⊢
  case case2 ok state hstage hload =>
    rw [hc] at hload
    exact ⟨hc, loadFile_ok hload⟩
  case case4 dstState ok state hstage hload =>
    obtain ⟨srcState, hload, hcombine⟩ := Option.bind_eq_some_iff.1 hload
    rw [hc.1] at hload
    refine ⟨hc.1, ?_⟩
    rw [combinedState, hc.2]
    simp only [Option.bind_eq_bind, Option.bind_some, loadFile_ok hload]
    exact hcombine
  case case5 => exact hc
  case case6 | case7 | case8 => exact hc.2
  case case10 state hstage s file hpersist =>
    rw [combinedFile, hc]
    simp only [Option.bind_eq_bind, Option.bind_some, hpersist]
  case case12 file hstage =>
    exact holds_writeLoop hc (Nat.zero_le _) List.length_replicate rfl
  case case15 file temp total hstage n hn =>
    obtain ⟨hfile, hle, hlen, htake⟩ := hc
    have hend : total + (slice file total n).length ≤ temp.length := by
      rw [length_slice (by omega)]; omega
    exact holds_writeLoop hfile (by omega) ((length_splice hend).trans hlen)
      (take_splice_slice hlen htake (by omega))

/-- What is known after some calls. -/
structure CombineInv (estimate : ℚ → ℕ → BitVec 64) (dst src : Name)
    (files₀ : Name → Option (List Byte)) (calls : List SysCall) (c : Combine Name) : Prop where
  holds : c.stage.Holds estimate dst src files₀ c.files
  pending : .linkat true ∉ calls → c.files dst = if .unlink true ∈ calls then none else files₀ dst
  linked : .linkat true ∈ calls → (c.stage = .close ∨ c.stage = .exited) ∧ c.files dst ≠ none ∧
    c.files dst = combinedFile estimate (files₀ dst) (files₀ src)

/-- One call. -/
theorem CombineInv.step {calls : List SysCall} {c c' : Combine Name} {call : SysCall}
    (hc : CombineInv estimate dst src files₀ calls c)
    (h : combineStep estimate dst src c call = some c') :
    CombineInv estimate dst src files₀ (calls ++ [call]) c' := by
  have hholds := combineStep_holds hc.holds h
  rcases combineStep_files h with ⟨hu, hl, hfiles, hdone⟩ | ⟨state, rfl, hstage, rfl⟩ |
    ⟨temp, rfl, hstage, hfree, rfl⟩
  · have hmem : ∀ call', call' ≠ call → (call' ∈ calls ++ [call] ↔ call' ∈ calls) := by
      intro call' hne
      rw [List.mem_append, List.mem_singleton, or_iff_left hne]
    refine ⟨hholds, ?_, ?_⟩
    · rw [hmem _ hl.symm, hfiles]
      simp only [hmem _ hu.symm]
      exact hc.pending
    · rw [hmem _ hl.symm, hfiles]
      intro hlink
      obtain ⟨hend, hfile⟩ := hc.linked hlink
      exact ⟨.inr (hdone hend), hfile⟩
  · -- the name cannot have been linked before it is removed
    have hno : .linkat true ∉ calls := by
      intro hlink
      rcases (hc.linked hlink).1 with hend | hend <;> rw [hstage] at hend <;> cases hend
    refine ⟨hholds, fun _ => ?_, fun hlink => absurd hlink (by simpa using hno)⟩
    rw [if_pos (by simp)]
    exact Function.update_self ..
  · have hfile : combinedFile estimate (files₀ dst) (files₀ src) = some temp := by
      have := hc.holds
      rw [hstage] at this
      exact this
    refine ⟨hholds, fun hno => absurd (by simp) hno, fun _ => ⟨.inl rfl, ?_⟩⟩
    have hself : Function.update c.files dst (some temp) dst = some temp := Function.update_self ..
    exact ⟨fun hnone => Option.some_ne_none temp (hself.symm.trans hnone), hself.trans hfile.symm⟩

end

/-- **All or nothing.**  The destination name refers to the original file, or to the
    complete combined file, exactly if `linkat` succeeded in the case that `unlink` has. -/
theorem combine_allOrNothing_iff (estimate : ℚ → ℕ → BitVec 64) (dst src : Name)
    {files₀ : Name → Option (List Byte)} {original : List Byte} (h₀ : files₀ dst = some original)
    {calls : List SysCall} {c : Combine Name}
    (hrun : calls.foldlM (combineStep estimate dst src) ⟨.loadDst, files₀⟩ = some c) :
    (c.files dst = some original ∨
      ∃ file, combinedFile estimate (files₀ dst) (files₀ src) = some file ∧
        c.files dst = some file) ↔ (.unlink true ∈ calls → .linkat true ∈ calls) := by
  have hstart : CombineInv estimate dst src files₀ [] ⟨.loadDst, files₀⟩ :=
    ⟨rfl, fun _ => rfl, fun hlink => nomatch hlink⟩
  have hinv := Run.rel_of_run (R := CombineInv estimate dst src files₀)
    (fun _ _ _ _ hc h => hc.step h) calls hstart hrun
  rw [List.nil_append] at hinv
  by_cases hlink : .linkat true ∈ calls
  · obtain ⟨-, hsome, hfile⟩ := hinv.linked hlink
    obtain ⟨file, hf⟩ := Option.ne_none_iff_exists'.1 hsome
    refine ⟨fun _ _ => hlink, fun _ => .inr ⟨file, ?_, hf⟩⟩
    rw [← hfile, hf]
  · have hpending := hinv.pending hlink
    split_ifs at hpending with hunlink
    · simp [hpending, hunlink, hlink]
    · rw [h₀] at hpending
      exact ⟨fun _ hunlink' => absurd hunlink' hunlink, fun _ => .inl hpending⟩

/-! ## Runs that succeed -/

/-- The calls until the name of the destination is removed, and the others. -/
def callsUntilUnlink : List SysCall := [.load true, .load true, .access true, .unlink true]

def callsAfterUnlink (size : ℕ) : List SysCall :=
  [.openTmpfile true, .fallocate true, .write (some size), .linkat true, .close true]

/-- **A run without a failure** replaces the destination by the combined file. -/
theorem combine_runs {estimate : ℚ → ℕ → BitVec 64} (dst src : Name)
    (files₀ : Name → Option (List Byte)) {state state' : HonasState} {file : List Byte}
    (hstate : combinedState (files₀ dst) (files₀ src) = some state)
    (hpersist : honasStatePersist estimate state = some (state', file)) (hpos : 0 < file.length) :
    callsUntilUnlink.foldlM (combineStep estimate dst src) ⟨.loadDst, files₀⟩ =
        some ⟨.openTmpfile state, Function.update files₀ dst none⟩ ∧
      (callsAfterUnlink file.length).foldlM (combineStep estimate dst src)
          ⟨.openTmpfile state, Function.update files₀ dst none⟩ =
        some ⟨.exited, Function.update files₀ dst (some file)⟩ := by
  obtain ⟨dstState, hdst, hrest⟩ := Option.bind_eq_some_iff.1 hstate
  obtain ⟨srcState, hsrc, hcombine⟩ := Option.bind_eq_some_iff.1 hrest
  constructor
  · simp only [callsUntilUnlink, List.foldlM_cons, List.foldlM_nil, combineStep, if_true, hdst, hsrc,
      hcombine, Option.bind_eq_bind, Option.bind_some, Option.pure_def]
  · have hwrite : splice (List.replicate file.length 0) 0 (slice file 0 file.length) = file := by
      simp [splice, slice]
    simp only [callsAfterUnlink, List.foldlM_cons, List.foldlM_nil, combineStep, hpersist, writeLoop,
      if_true, hpos, Nat.sub_zero, le_refl, hwrite, Nat.zero_add, lt_irrefl, if_false,
      Function.update_self, Function.update_idem, Option.bind_eq_bind, Option.bind_some,
      Option.pure_def]

/-- A state file: memory of a size, and with a header, for the parameters. -/
structure StateFile (p : StateParams) (file : List Byte) : Prop where
  length : file.length = p.size
  config : ∀ f : HeaderField, f.isConfig → headerGet file f = p.config f

section

variable {p q : StateParams} {m n : List Byte}

theorem StateFile.load (hok : p.Ok) (h : StateFile p m) :
    ∃ s, loadFile (some m) = some (some s) ∧ s.mmap = m ∧ Shaped p s ∧ Mapped s := by
  obtain ⟨s, hl, hm, hs, hmap⟩ := load_spec hok h.length h.config
  refine ⟨s, ?_, hm, hs, hmap⟩
  rw [loadFile, hl]

/-- **Combining two state files** that are compatible adds the requests, and merges the
    filters and the registers. -/
theorem StateFile.combine (estimate : ℚ → ℕ → BitVec 64) (hp : p.Ok) (hq : q.Ok)
    (hpq : Compatible p q) (hm : StateFile p m) (hn : StateFile q n) :
    ∃ state state' file, combinedState (some m) (some n) = some state ∧
      honasStatePersist estimate state = some (state', file) ∧ StateFile p file ∧
      headerGet file .numberOfRequests =
        (headerGet m .numberOfRequests + headerGet n .numberOfRequests) % 2 ^ 64 ∧
      ∀ x, 8 * p.first ≤ x → (bitAt file x = true ↔
        bitAt m x = true ∨ x ∈ p.mergedBits ∧ bitAt n x = true) := by
  obtain ⟨s, hls, rfl, hs, hms⟩ := hm.load hp
  obtain ⟨t, hlt, rfl, ht, hmt⟩ := hn.load hq
  obtain ⟨state, t', hc, hshape, hmap, hreq, hbits⟩ := combine_loaded hp.toFits hpq hs hms ht hmt
  obtain ⟨state', hpersist, -, hkeep, hmem⟩ := (Active.of_mapped hshape hmap).persist estimate hp
  have hfirst := p.header_le_first
  refine ⟨state, state', state'.mmap, ?_, hpersist, ⟨hkeep.length, hkeep.config⟩,
    (hkeep.header .numberOfRequests rfl).trans hreq, fun x hx => ?_⟩
  · rw [combinedState, hls, hlt]
    simp only [combineStates, hc, Option.bind_eq_bind, Option.bind_some]
  · rw [hmem hmap x hx, hbits x (by omega)]

/-- **A refused combine** writes the state of the destination again. -/
theorem StateFile.combine_refused (estimate : ℚ → ℕ → BitVec 64) (hp : p.Ok) (hq : q.Ok)
    (hpq : ¬ Compatible p q) (hm : StateFile p m) (hn : StateFile q n) :
    ∃ file, combinedFile estimate (some m) (some n) = some file ∧ StateFile p file ∧
      (∀ f : HeaderField, f.isEstimate = false → headerGet file f = headerGet m f) ∧
      ∀ x, 8 * p.first ≤ x → bitAt file x = bitAt m x := by
  obtain ⟨s, hls, rfl, hs, hms⟩ := hm.load hp
  obtain ⟨t, hlt, rfl, ht, -⟩ := hn.load hq
  obtain ⟨s', hpersist, -, hkeep, hmem⟩ := (Active.of_mapped hs hms).persist estimate hp
  refine ⟨s'.mmap, ?_, ⟨hkeep.length, hkeep.config⟩, hkeep.header, hmem hms⟩
  rw [combinedFile, combinedState, hls, hlt]
  simp only [combineStates, Honas.combine_refused hs ht hpq, hpersist, Option.bind_eq_bind,
    Option.bind_some]

theorem StateFile.pos (h : StateFile p m) : 0 < m.length := by
  rw [h.length]
  exact lt_of_lt_of_le (by decide) p.sizeofHeader_le

end

/-- The file of a small state without lookups. -/
theorem exists_smallFile : ∃ file, StateFile smallParams file := by
  obtain ⟨s, -, hs, -⟩ := honasStateCreate_represents smallParams_ok
  exact ⟨s.mmap, hs.length, hs.config⟩

/-- A run of all calls on two small files: `unlink` and `linkat` succeed. -/
theorem combine_allOrNothing_small : ∃ (file : List Byte) (calls : List SysCall) (c : Combine Bool),
    calls.foldlM (combineStep (fun _ _ => 0) true false) ⟨.loadDst, fun _ => some file⟩ = some c ∧
      .unlink true ∈ calls ∧ .linkat true ∈ calls ∧
      (c.files true = some file ∨ ∃ combined, combinedFile (fun _ _ => 0) (some file) (some file) =
        some combined ∧ c.files true = some combined) := by
  obtain ⟨file, hfile⟩ := exists_smallFile
  obtain ⟨state, state', combined, hstate, hpersist, hcombined, -⟩ :=
    hfile.combine (fun _ _ => 0) smallParams_ok smallParams_ok (.refl _) hfile
  obtain ⟨hunlink, hlink⟩ := combine_runs true false (fun _ => some file) hstate hpersist hcombined.pos
  have hrun : (callsUntilUnlink ++ callsAfterUnlink combined.length).foldlM
      (combineStep (fun _ _ => 0) true false) ⟨.loadDst, fun _ => some file⟩ =
        some ⟨.exited, Function.update (fun _ => some file) true (some combined)⟩ := by
    rw [List.foldlM_append, hunlink]
    exact hlink
  have hlinked : SysCall.linkat true ∈ callsUntilUnlink ++ callsAfterUnlink combined.length :=
    List.mem_append_right _ (by simp [callsAfterUnlink])
  exact ⟨file, _, _, hrun, List.mem_append_left _ (by simp [callsUntilUnlink]), hlinked,
    (combine_allOrNothing_iff (fun _ _ => 0) true false rfl hrun).2 fun _ => hlinked⟩

/-- A process that is killed after `unlink` leaves no file. -/
theorem not_combine_allOrNothing : ¬ ∀ (estimate : ℚ → ℕ → BitVec 64)
    (files₀ : Bool → Option (List Byte)) (original : List Byte), files₀ true = some original →
    ∀ (calls : List SysCall) (c : Combine Bool),
      calls.foldlM (combineStep estimate true false) ⟨.loadDst, files₀⟩ = some c →
      c.files true = some original ∨ ∃ file,
        combinedFile estimate (files₀ true) (files₀ false) = some file ∧
          c.files true = some file := by
  intro h
  obtain ⟨file, hfile⟩ := exists_smallFile
  obtain ⟨state, state', combined, hstate, hpersist, hcombined, -⟩ :=
    hfile.combine (fun _ _ => 0) smallParams_ok smallParams_ok (.refl _) hfile
  obtain ⟨hunlink, -⟩ := combine_runs true false (fun _ => some file) hstate hpersist hcombined.pos
  rcases h (fun _ _ => 0) (fun _ => some file) file rfl callsUntilUnlink _ hunlink with
    hold | ⟨combined', -, hnew⟩
  · cases hold
  · cases hnew

end Honas
