/-
  Loading the subnet definitions from a file (`src/subnet_activity.c`).

  The file is read in blocks, and each block is handed to the parser, which calls the
  callbacks.  The loop ends when nothing is read and the end of the file is known, or
  when the parser reports an error.  What is returned is the status that the callbacks
  left.  `fopen`, `fread`, `feof` and yajl are parameters.

  `subnetActivityInitializeFile_eq`: a file that is loaded is what its events are.
  `loadsTruthfully_iff`: which files are loaded, and reported, as they are.
-/
import Honas.SubnetDocument

namespace Honas

open Bits CString LongestMatch

/-! ## The file and the parser -/

/-- `READ_BLOCK_SIZE`. -/
def READ_BLOCK_SIZE : ℕ := 65536

/-- What a call of `fread` reads, and `feof` after it. -/
structure Fread where
  buf : List Byte
  feof : Bool
  length_le : buf.length ≤ READ_BLOCK_SIZE

/-- `rd == 0 && feof(job_fh)`. -/
def Fread.atEnd (rd : Fread) : Bool := rd.buf.length = 0 && rd.feof

/-- `yajl_status`. -/
inductive YajlStatus where
  | ok
  | clientCanceled
  | error
deriving DecidableEq

/-- The functions of yajl: what they report to the callbacks, unless these stop it, and
    the status.  An event comes with whether the allocation in its callback succeeds.
    After an error the parser can only complete with an error. -/
structure Yajl (Handle : Type*) where
  alloc : Option Handle
  parse : Handle → List Byte → Handle × List (JsonEvent × Bool) × YajlStatus
  completeParse : Handle → Handle × List (JsonEvent × Bool) × YajlStatus
  completeParse_error : ∀ handle buf, (parse handle buf).2.2 ≠ .ok →
    (completeParse (parse handle buf).1).2 = ([], .error)

/-- The loop of `subnet_activity_initialize`: it goes on, with the context and whether
    the callbacks did not stop the parser, or it was left, or a callback has written
    outside of a buffer. -/
inductive SubnetLoop (Handle : Type*) where
  | reading (handle : Handle) (s : SubnetSpecContext × Bool)
  | finished (ctx : SubnetSpecContext)
  | outside

section

variable {Handle : Type*} (inetPton : List Byte → Option (BitVec 32))
  (inetPton6 : List Byte → Option (BitVec 128))

/-- The callbacks are called for the events that are reported.  If they stop the parser,
    its status is not that of the text. -/
def deliver (report : Handle × List (JsonEvent × Bool) × YajlStatus)
    (s : SubnetSpecContext × Bool) : Option (Handle × (SubnetSpecContext × Bool) × YajlStatus) :=
  (report.2.1.foldlM (subnetActivityStep inetPton inetPton6) s).map fun s =>
    (report.1, s, if s.2 then report.2.2 else .clientCanceled)

variable (yajl : Yajl Handle) (fread : ℕ → Fread)

/-- The loop body. -/
def SubnetLoop.body (k : ℕ) : SubnetLoop Handle → SubnetLoop Handle
  | .reading handle s =>
    if (fread k).atEnd then .finished s.1
    else
      match deliver inetPton inetPton6 (yajl.parse handle (fread k).buf) s with
      | none => .outside
      | some (handle, s, .ok) => .reading handle s
      | some (handle, s, _) =>
        match deliver inetPton inetPton6 (yajl.completeParse handle) s with
        | none => .outside
        | some (handle, s, .ok) => .reading handle s
        | some (_, s, _) => .finished s.1
  | loop => loop

/-- The first passes of the loop. -/
def subnetLoop (handle : Handle) : ℕ → SubnetLoop Handle
  | 0 => .reading handle (subnetSpecInit, true)
  | n + 1 => (subnetLoop handle n).body inetPton inetPton6 yajl fread n

end

/-- `subnet_activity_initialize`, with at most `fuel` passes of the loop: the table, and
    the status. -/
def subnetActivityInitializeFile {Path Handle : Type*} (inetPton : List Byte → Option (BitVec 32))
    (inetPton6 : List Byte → Option (BitVec 128)) (fopen : Path → Option (ℕ → Fread))
    (yajl : Yajl Handle) (subnetfile : Option Path) (fuel : ℕ) :
    Option (SubnetTable × SubnetActivityError) :=
  match subnetfile with
  | none => some (subnetSpecInit.subnetMetadata, .invalidArgument)
  | some path =>
    match fopen path with
    | none => some (subnetSpecInit.subnetMetadata, .openFileFailed)
    | some fread =>
      match yajl.alloc with
      -- `return false`
      | none => some (subnetSpecInit.subnetMetadata, .ok)
      | some handle =>
        match subnetLoop inetPton inetPton6 yajl fread handle fuel with
        | .finished ctx => some (ctx.subnetMetadata, ctx.saStatusCode)
        | _ => none

/-! ## What the parser reports of a file -/

section

variable {Handle : Type*} (yajl : Yajl Handle) (fread : ℕ → Fread) (handle : Handle)

/-- The parser before block `k`. -/
def handleAt : ℕ → Handle
  | 0 => handle
  | k + 1 => (yajl.parse (handleAt k) (fread k).buf).1

/-- The status of block `k`. -/
def statusAt (k : ℕ) : YajlStatus := (yajl.parse (handleAt yajl fread handle k) (fread k).buf).2.2

/-- The events of the first `n` blocks. -/
def eventsBefore (n : ℕ) : List (JsonEvent × Bool) :=
  (List.range n).flatMap fun k => (yajl.parse (handleAt yajl fread handle k) (fread k).buf).2.1

/-- The events of a file of `n` blocks, with those that are reported when it is
    complete. -/
def documentEvents (n : ℕ) : List (JsonEvent × Bool) :=
  eventsBefore yajl fread handle n ++ (yajl.completeParse (handleAt yajl fread handle n)).2.1

/-- The first `n` blocks are read, and the parser finds no error in them. -/
def Parsed (n : ℕ) : Prop :=
  ∀ k < n, (fread k).atEnd = false ∧ statusAt yajl fread handle k = .ok

theorem eventsBefore_succ (n : ℕ) : eventsBefore yajl fread handle (n + 1) =
    eventsBefore yajl fread handle n ++
      (yajl.parse (handleAt yajl fread handle n) (fread n).buf).2.1 := by
  rw [eventsBefore, List.range_succ, List.flatMap_append, eventsBefore, List.flatMap_singleton]

end

/-! ## The loop -/

section

variable {Handle : Type*} {inetPton : List Byte → Option (BitVec 32)}
  {inetPton6 : List Byte → Option (BitVec 128)} {yajl : Yajl Handle} {fread : ℕ → Fread}
  {handle : Handle}

/-- The callbacks for the events of the first `n` blocks. -/
abbrev callbacksBefore (inetPton : List Byte → Option (BitVec 32))
    (inetPton6 : List Byte → Option (BitVec 128)) (yajl : Yajl Handle) (fread : ℕ → Fread)
    (handle : Handle) (n : ℕ) : Option (SubnetSpecContext × Bool) :=
  (eventsBefore yajl fread handle n).foldlM (subnetActivityStep inetPton inetPton6)
    (subnetSpecInit, true)

theorem callbacksBefore_succ (n : ℕ) :
    callbacksBefore inetPton inetPton6 yajl fread handle (n + 1) =
      (callbacksBefore inetPton inetPton6 yajl fread handle n).bind fun s =>
        (yajl.parse (handleAt yajl fread handle n) (fread n).buf).2.1.foldlM
          (subnetActivityStep inetPton inetPton6) s := by
  rw [callbacksBefore, eventsBefore_succ, List.foldlM_append]
  rfl

/-- Callbacks that have stopped the parser are not called any more. -/
theorem foldlM_stopped (ctx : SubnetSpecContext) : ∀ events : List (JsonEvent × Bool),
    events.foldlM (subnetActivityStep inetPton inetPton6) (ctx, false) = some (ctx, false)
  | [] => rfl
  | _ :: events => foldlM_stopped ctx events

/-- **A block.** -/
theorem body_reading {n : ℕ} {ctx : SubnetSpecContext} (hread : (fread n).atEnd = false) :
    (SubnetLoop.reading (handleAt yajl fread handle n) (ctx, true)).body inetPton inetPton6 yajl
        fread n =
      match (yajl.parse (handleAt yajl fread handle n) (fread n).buf).2.1.foldlM
          (subnetActivityStep inetPton inetPton6) (ctx, true) with
      | none => .outside
      | some (ctx, true) =>
        if statusAt yajl fread handle n = .ok then
          .reading (handleAt yajl fread handle (n + 1)) (ctx, true)
        else .finished ctx
      | some (ctx, false) => .finished ctx := by
  rw [SubnetLoop.body, hread, if_neg nofun, deliver, statusAt, handleAt]
  cases (yajl.parse (handleAt yajl fread handle n) (fread n).buf).2.1.foldlM
      (subnetActivityStep inetPton inetPton6) (ctx, true) with
  | none => rfl
  | some s =>
    obtain ⟨ctx', _ | _⟩ := s
    · -- a callback has stopped the parser
      rw [Option.map_some, if_neg nofun]
      dsimp only
      rw [deliver, foldlM_stopped]
      rfl
    · rw [Option.map_some, if_pos rfl]
      dsimp only
      by_cases hok : (yajl.parse (handleAt yajl fread handle n) (fread n).buf).2.2 = .ok
      · rw [hok, if_pos rfl]
      · have hcomplete : deliver inetPton inetPton6 (yajl.completeParse
            (yajl.parse (handleAt yajl fread handle n) (fread n).buf).1) (ctx', true) =
              some ((yajl.completeParse
                (yajl.parse (handleAt yajl fread handle n) (fread n).buf).1).1, (ctx', true),
                  .error) := by
          rw [deliver, yajl.completeParse_error _ _ hok]
          rfl
        rw [if_neg hok]
        cases hs : (yajl.parse (handleAt yajl fread handle n) (fread n).buf).2.2 with
        | ok => exact absurd hs hok
        | clientCanceled =>
          dsimp only
          rw [hcomplete]
        | error =>
          dsimp only
          rw [hcomplete]

/-- The loop after `n` blocks in which the parser finds no error. -/
theorem subnetLoop_of_parsed : ∀ {n : ℕ}, Parsed yajl fread handle n →
    subnetLoop inetPton inetPton6 yajl fread handle n =
      match callbacksBefore inetPton inetPton6 yajl fread handle n with
      | none => .outside
      | some (ctx, true) => .reading (handleAt yajl fread handle n) (ctx, true)
      | some (ctx, false) => .finished ctx
  | 0, _ => rfl
  | n + 1, hp => by
    obtain ⟨hread, hok⟩ := hp n (Nat.lt_succ_self n)
    rw [subnetLoop, subnetLoop_of_parsed fun k hk => hp k (hk.trans (Nat.lt_succ_self n)),
      callbacksBefore_succ]
    rcases callbacksBefore inetPton inetPton6 yajl fread handle n with _ | ⟨ctx, _ | _⟩
    · rfl
    · rw [Option.bind_some, foldlM_stopped]
      rfl
    · dsimp only
      rw [body_reading hread, hok]
      simp only [if_true]
      rfl

/-- The loop after a block, with an error in it or not. -/
theorem subnetLoop_succ {n : ℕ} (hp : Parsed yajl fread handle n)
    (hread : (fread n).atEnd = false) :
    subnetLoop inetPton inetPton6 yajl fread handle (n + 1) =
      match callbacksBefore inetPton inetPton6 yajl fread handle (n + 1) with
      | none => .outside
      | some (ctx, true) =>
        if statusAt yajl fread handle n = .ok then
          .reading (handleAt yajl fread handle (n + 1)) (ctx, true)
        else .finished ctx
      | some (ctx, false) => .finished ctx := by
  rw [subnetLoop, subnetLoop_of_parsed hp, callbacksBefore_succ]
  rcases callbacksBefore inetPton inetPton6 yajl fread handle n with _ | ⟨ctx, _ | _⟩
  · rfl
  · rw [Option.bind_some, foldlM_stopped]
    rfl
  · exact body_reading hread

/-- How the loop ends: a callback stops the parser, or the file ends, or the parser
    reports an error. -/
inductive LoopEnds (inetPton : List Byte → Option (BitVec 32))
    (inetPton6 : List Byte → Option (BitVec 128)) (yajl : Yajl Handle) (fread : ℕ → Fread)
    (handle : Handle) (ctx : SubnetSpecContext) : Prop
  | stopped {n} : Parsed yajl fread handle n → (fread n).atEnd = false →
      callbacksBefore inetPton inetPton6 yajl fread handle (n + 1) = some (ctx, false) →
      LoopEnds inetPton inetPton6 yajl fread handle ctx
  | atEnd {n} : Parsed yajl fread handle n → (fread n).atEnd = true →
      callbacksBefore inetPton inetPton6 yajl fread handle n = some (ctx, true) →
      LoopEnds inetPton inetPton6 yajl fread handle ctx
  | error {n} : Parsed yajl fread handle n → (fread n).atEnd = false →
      statusAt yajl fread handle n ≠ .ok →
      callbacksBefore inetPton inetPton6 yajl fread handle (n + 1) = some (ctx, true) →
      LoopEnds inetPton inetPton6 yajl fread handle ctx

/-- What holds after every pass. -/
def LoopInv (inetPton : List Byte → Option (BitVec 32))
    (inetPton6 : List Byte → Option (BitVec 128)) (yajl : Yajl Handle) (fread : ℕ → Fread)
    (handle : Handle) (n : ℕ) : SubnetLoop Handle → Prop
  | .reading h s => Parsed yajl fread handle n ∧ h = handleAt yajl fread handle n ∧ s.2 = true ∧
      callbacksBefore inetPton inetPton6 yajl fread handle n = some s
  | .finished ctx => LoopEnds inetPton inetPton6 yajl fread handle ctx
  | .outside => True

theorem LoopInv.body {n : ℕ} {loop : SubnetLoop Handle}
    (h : LoopInv inetPton inetPton6 yajl fread handle n loop) :
    LoopInv inetPton inetPton6 yajl fread handle (n + 1)
      (loop.body inetPton inetPton6 yajl fread n) := by
  cases loop with
  | finished ctx => exact h
  | outside => exact trivial
  | reading hd s =>
    obtain ⟨ctx, go⟩ := s
    obtain ⟨hp, rfl, rfl, hc⟩ := h
    cases hread : (fread n).atEnd with
    | true =>
      rw [SubnetLoop.body, if_pos hread]
      exact .atEnd hp hread hc
    | false =>
      have hsucc : callbacksBefore inetPton inetPton6 yajl fread handle (n + 1) =
          (yajl.parse (handleAt yajl fread handle n) (fread n).buf).2.1.foldlM
            (subnetActivityStep inetPton inetPton6) (ctx, true) := by
        rw [callbacksBefore_succ, hc]
        rfl
      rw [body_reading hread, ← hsucc]
      rcases hc' : callbacksBefore inetPton inetPton6 yajl fread handle (n + 1) with
        _ | ⟨ctx', _ | _⟩
      · exact trivial
      · exact .stopped hp hread hc'
      · dsimp only
        split_ifs with hok
        · refine ⟨fun k hk => ?_, rfl, rfl, hc'⟩
          rcases Nat.lt_succ_iff_lt_or_eq.1 hk with hlt | rfl
          · exact hp k hlt
          · exact ⟨hread, hok⟩
        · exact .error hp hread hok hc'

/-- **How the loop ends.** -/
theorem subnetLoop_finished_iff {ctx : SubnetSpecContext} :
    (∃ fuel, subnetLoop inetPton inetPton6 yajl fread handle fuel = .finished ctx) ↔
      LoopEnds inetPton inetPton6 yajl fread handle ctx := by
  constructor
  · rintro ⟨fuel, hfuel⟩
    have hinv : ∀ n, LoopInv inetPton inetPton6 yajl fread handle n
        (subnetLoop inetPton inetPton6 yajl fread handle n) := by
      intro n
      induction n with
      | zero => exact ⟨fun k hk => absurd hk (Nat.not_lt_zero k), rfl, rfl, rfl⟩
      | succ n ih => exact ih.body
    have hend := hinv fuel
    rwa [hfuel] at hend
  · intro hend
    cases hend with
    | @stopped n hp hread hc => exact ⟨n + 1, by rw [subnetLoop_succ hp hread, hc]⟩
    | @atEnd n hp hend hc =>
      refine ⟨n + 1, ?_⟩
      rw [subnetLoop, subnetLoop_of_parsed hp, hc]
      exact if_pos hend
    | @error n hp hread hok hc =>
      refine ⟨n + 1, ?_⟩
      rw [subnetLoop_succ hp hread, hc]
      exact if_neg hok

/-! ## What is reported of a file -/

/-- The prefixes that a document lists. -/
def listedPrefixes (inetPton : List Byte → Option (BitVec 32))
    (inetPton6 : List Byte → Option (BitVec 128)) (events : List (JsonEvent × Bool)) :
    List (InAddr46 × ℕ) :=
  match readAll inetPton inetPton6 events with
  | .accepted o => o.listed.map Prod.fst
  | _ => []

/-- The file was read to its end after `n` blocks, as one complete document of which the
    callbacks accept all events, and the table has its prefixes. -/
structure LoadedComplete (inetPton : List Byte → Option (BitVec 32))
    (inetPton6 : List Byte → Option (BitVec 128)) (yajl : Yajl Handle) (fread : ℕ → Fread)
    (handle : Handle) (n : ℕ) (t : SubnetTable) : Prop where
  parsed : Parsed yajl fread handle n
  atEnd : (fread n).atEnd = true
  complete : (yajl.completeParse (handleAt yajl fread handle n)).2.2 = .ok
  accepted : ∃ ctx, (documentEvents yajl fread handle n).foldlM
    (subnetActivityStep inetPton inetPton6) (subnetSpecInit, true) = some (ctx, true)
  listed : ∀ p ∈ listedPrefixes inetPton inetPton6 (documentEvents yajl fread handle n),
    (lookup PrefixMatch.key t.prefixes p).isSome
  registered : t.registeredPrefixes = t.prefixes.length

/-- The files of which the truth is reported: a callback rejects an event, or the last
    prefix that is read could not be stored, or the document is complete and each of its
    prefixes is stored and not listed again. -/
inductive ReportedFile (inetPton : List Byte → Option (BitVec 32))
    (inetPton6 : List Byte → Option (BitVec 128)) (yajl : Yajl Handle) (fread : ℕ → Fread)
    (handle : Handle) : Prop
  | rejected {n} : Parsed yajl fread handle n → (fread n).atEnd = false →
      readAll inetPton inetPton6 (eventsBefore yajl fread handle (n + 1)) = .rejected →
      ReportedFile inetPton inetPton6 yajl fread handle
  | lostAtEnd {n o} : Parsed yajl fread handle n → (fread n).atEnd = true →
      readAll inetPton inetPton6 (eventsBefore yajl fread handle n) = .accepted o →
      NewestLost o.listed → ReportedFile inetPton inetPton6 yajl fread handle
  | lostAtError {n o} : Parsed yajl fread handle n → (fread n).atEnd = false →
      statusAt yajl fread handle n ≠ .ok →
      readAll inetPton inetPton6 (eventsBefore yajl fread handle (n + 1)) = .accepted o →
      NewestLost o.listed → ReportedFile inetPton inetPton6 yajl fread handle
  | complete {n o o'} : Parsed yajl fread handle n → (fread n).atEnd = true →
      readAll inetPton inetPton6 (eventsBefore yajl fread handle n) = .accepted o →
      (yajl.completeParse (handleAt yajl fread handle n)).2.2 = .ok →
      readAll inetPton inetPton6 (documentEvents yajl fread handle n) = .accepted o' →
      (∀ p ∈ o'.listed, (p.1, true) ∈ o.listed) →
      (o.listed.Pairwise fun later earlier => later.1 = earlier.1 → earlier.2 = false) →
      ReportedFile inetPton inetPton6 yajl fread handle

theorem Agrees.accepted {ctx : SubnetSpecContext} {verdict : SubnetVerdict}
    (h : Agrees (some (ctx, true)) verdict) : ∃ o, verdict = .accepted o ∧ Tracks ctx o := by
  cases verdict with
  | accepted o =>
    obtain ⟨ctx', heq, htracks⟩ := h
    obtain ⟨rfl, -⟩ := Prod.mk.inj (Option.some.inj heq)
    exact ⟨o, rfl, htracks⟩
  | rejected =>
    obtain ⟨ctx', heq, -⟩ := h
    cases heq
  | overrun => cases h

theorem Agrees.rejected {ctx : SubnetSpecContext} {verdict : SubnetVerdict}
    (h : Agrees (some (ctx, false)) verdict) :
    verdict = .rejected ∧ ctx.saStatusCode ≠ .ok := by
  cases verdict with
  | accepted o =>
    obtain ⟨ctx', heq, -⟩ := h
    cases heq
  | rejected =>
    obtain ⟨ctx', heq, hstatus⟩ := h
    obtain ⟨rfl, -⟩ := Prod.mk.inj (Option.some.inj heq)
    exact ⟨rfl, hstatus⟩
  | overrun => cases h

theorem Tracks.isSome_lookup {ctx : SubnetSpecContext} {o : SubnetOutline} (h : Tracks ctx o)
    (p : InAddr46 × ℕ) :
    (lookup PrefixMatch.key ctx.subnetMetadata.prefixes p).isSome ↔ (p, true) ∈ o.listed := by
  rw [LongestMatch.isSome_lookup, h.prefixes, List.mem_reverse, mem_stored]

theorem Tracks.registered_iff {ctx : SubnetSpecContext} {o : SubnetOutline} (h : Tracks ctx o) :
    ctx.subnetMetadata.registeredPrefixes = ctx.subnetMetadata.prefixes.length ↔
      o.listed.Pairwise fun later earlier => later.1 = earlier.1 → earlier.2 = false := by
  have hlen : ctx.subnetMetadata.prefixes.length = (stored o.listed).length := by
    have heq := congrArg List.length h.prefixes
    rwa [List.length_map, List.length_reverse] at heq
  rw [← repeats_eq_zero, h.registered, hlen]
  omega

/-- Two ends of one file. -/
theorem Parsed.end_unique {m n : ℕ} (hm : Parsed yajl fread handle m)
    (hn : Parsed yajl fread handle n) (hem : (fread m).atEnd = true) (hen : (fread n).atEnd = true) :
    m = n := by
  rcases Nat.lt_trichotomy m n with hlt | heq | hgt
  · rw [(hn m hlt).1] at hem
    cases hem
  · exact heq
  · rw [(hm n hgt).1] at hen
    cases hen

/-- A file with an error in it has no end behind it. -/
theorem Parsed.no_end {m n : ℕ} (hm : Parsed yajl fread handle m) (hn : Parsed yajl fread handle n)
    (hread : (fread n).atEnd = false) (hstatus : statusAt yajl fread handle n ≠ .ok) :
    (fread m).atEnd = false := by
  rcases Nat.lt_trichotomy m n with hlt | rfl | hgt
  · exact (hn m hlt).1
  · exact hread
  · exact absurd (hm n hgt).2 hstatus

/-- What the callbacks did with the first blocks. -/
theorem agrees_of_callbacks {n : ℕ} {result : Option (SubnetSpecContext × Bool)}
    (h : callbacksBefore inetPton inetPton6 yajl fread handle n = result) :
    Agrees result (readAll inetPton inetPton6 (eventsBefore yajl fread handle n)) :=
  h ▸ agrees_readAll _

/-- **A complete document** is loaded if each of its prefixes is stored, and not listed
    again. -/
theorem loadedComplete_iff {n : ℕ} {ctx : SubnetSpecContext} {o : SubnetOutline}
    (hp : Parsed yajl fread handle n) (hend : (fread n).atEnd = true) (htracks : Tracks ctx o) :
    LoadedComplete inetPton inetPton6 yajl fread handle n ctx.subnetMetadata ↔
      (yajl.completeParse (handleAt yajl fread handle n)).2.2 = .ok ∧
      (∃ o', readAll inetPton inetPton6 (documentEvents yajl fread handle n) = .accepted o' ∧
        ∀ p ∈ o'.listed, (p.1, true) ∈ o.listed) ∧
      o.listed.Pairwise fun later earlier => later.1 = earlier.1 → earlier.2 = false := by
  have hagrees : Agrees ((documentEvents yajl fread handle n).foldlM
      (subnetActivityStep inetPton inetPton6) (subnetSpecInit, true))
      (readAll inetPton inetPton6 (documentEvents yajl fread handle n)) := agrees_readAll _
  constructor
  · intro h
    obtain ⟨ctx', hctx'⟩ := h.accepted
    rw [hctx'] at hagrees
    obtain ⟨o', ho', -⟩ := hagrees.accepted
    refine ⟨h.complete, ⟨o', ho', fun p hmem => ?_⟩, htracks.registered_iff.1 h.registered⟩
    refine (htracks.isSome_lookup p.1).1 (h.listed p.1 ?_)
    rw [listedPrefixes, ho']
    exact List.mem_map_of_mem hmem
  · rintro ⟨hcomplete, ⟨o', ho', hstored⟩, hpair⟩
    rw [ho'] at hagrees
    obtain ⟨ctx', hctx', -⟩ := hagrees
    refine ⟨hp, hend, hcomplete, ⟨ctx', hctx'⟩, fun k hk => ?_, htracks.registered_iff.2 hpair⟩
    rw [listedPrefixes, ho'] at hk
    obtain ⟨p, hmem, rfl⟩ := List.mem_map.1 hk
    exact (htracks.isSome_lookup p.1).2 (hstored p hmem)

/-- **The truth is reported** of a file exactly in these cases. -/
theorem reportedFile_iff :
    (∃ fuel ctx, subnetLoop inetPton inetPton6 yajl fread handle fuel = .finished ctx ∧
      (ctx.saStatusCode = .ok →
        ∃ n, LoadedComplete inetPton inetPton6 yajl fread handle n ctx.subnetMetadata)) ↔
      ReportedFile inetPton inetPton6 yajl fread handle := by
  constructor
  · rintro ⟨fuel, ctx, hfuel, htrue⟩
    cases subnetLoop_finished_iff.1 ⟨fuel, hfuel⟩ with
    | @stopped n hp hread hc =>
      exact .rejected hp hread (agrees_of_callbacks hc).rejected.1
    | @atEnd n hp hend hc =>
      obtain ⟨o, ho, htracks⟩ := (agrees_of_callbacks hc).accepted
      by_cases hlost : NewestLost o.listed
      · exact .lostAtEnd hp hend ho hlost
      · obtain ⟨m, hm⟩ := htrue (htracks.status.2 hlost)
        obtain rfl := hm.parsed.end_unique hp hm.atEnd hend
        obtain ⟨hcomplete, ⟨o', ho', hstored⟩, hpair⟩ := (loadedComplete_iff hp hend htracks).1 hm
        exact .complete hp hend ho hcomplete ho' hstored hpair
    | @error n hp hread hstatus hc =>
      obtain ⟨o, ho, htracks⟩ := (agrees_of_callbacks hc).accepted
      refine .lostAtError hp hread hstatus ho (not_not.1 fun hlost => ?_)
      obtain ⟨m, hm⟩ := htrue (htracks.status.2 hlost)
      exact nomatch (hm.parsed.no_end hp hread hstatus).symm.trans hm.atEnd
  · intro hreported
    cases hreported with
    | @rejected n hp hread hrejected =>
      obtain ⟨ctx, hc, hstatus⟩ : Agrees _ .rejected := hrejected ▸ agrees_of_callbacks rfl
      obtain ⟨fuel, hfuel⟩ := subnetLoop_finished_iff.2 (.stopped hp hread hc)
      exact ⟨fuel, ctx, hfuel, fun hok => absurd hok hstatus⟩
    | @lostAtEnd n o hp hend ho hlost =>
      obtain ⟨ctx, hc, htracks⟩ : Agrees _ (.accepted o) := ho ▸ agrees_of_callbacks rfl
      obtain ⟨fuel, hfuel⟩ := subnetLoop_finished_iff.2 (.atEnd hp hend hc)
      exact ⟨fuel, ctx, hfuel, fun hok => absurd hlost (htracks.status.1 hok)⟩
    | @lostAtError n o hp hread hstatus ho hlost =>
      obtain ⟨ctx, hc, htracks⟩ : Agrees _ (.accepted o) := ho ▸ agrees_of_callbacks rfl
      obtain ⟨fuel, hfuel⟩ := subnetLoop_finished_iff.2 (.error hp hread hstatus hc)
      exact ⟨fuel, ctx, hfuel, fun hok => absurd hlost (htracks.status.1 hok)⟩
    | @complete n o o' hp hend ho hcomplete ho' hstored hpair =>
      obtain ⟨ctx, hc, htracks⟩ : Agrees _ (.accepted o) := ho ▸ agrees_of_callbacks rfl
      obtain ⟨fuel, hfuel⟩ := subnetLoop_finished_iff.2 (.atEnd hp hend hc)
      exact ⟨fuel, ctx, hfuel, fun _ => ⟨n, (loadedComplete_iff hp hend htracks).2
        ⟨hcomplete, ⟨o', ho', hstored⟩, hpair⟩⟩⟩

end

/-! ## The function -/

section

variable {Path Handle : Type*} {inetPton : List Byte → Option (BitVec 32)}
  {inetPton6 : List Byte → Option (BitVec 128)} {fopen : Path → Option (ℕ → Fread)}
  {yajl : Yajl Handle}

/-- `subnet_activity_initialize` ends, and returns `SA_OK` only for a file that was read
    to its end, as one complete document, with its prefixes in the table. -/
def LoadsTruthfully (inetPton : List Byte → Option (BitVec 32))
    (inetPton6 : List Byte → Option (BitVec 128)) (fopen : Path → Option (ℕ → Fread))
    (yajl : Yajl Handle) (subnetfile : Option Path) : Prop :=
  ∃ fuel t status,
    subnetActivityInitializeFile inetPton inetPton6 fopen yajl subnetfile fuel = some (t, status) ∧
      (status = .ok → ∃ path fread handle n, subnetfile = some path ∧ fopen path = some fread ∧
        yajl.alloc = some handle ∧ LoadedComplete inetPton inetPton6 yajl fread handle n t)

/-- What is returned for a file. -/
theorem subnetActivityInitializeFile_eq_some {path : Path} {fread : ℕ → Fread} {handle : Handle}
    (hopen : fopen path = some fread) (halloc : yajl.alloc = some handle) {fuel : ℕ}
    {t : SubnetTable} {status : SubnetActivityError} :
    subnetActivityInitializeFile inetPton inetPton6 fopen yajl (some path) fuel = some (t, status) ↔
      ∃ ctx, subnetLoop inetPton inetPton6 yajl fread handle fuel = .finished ctx ∧
        ctx.subnetMetadata = t ∧ ctx.saStatusCode = status := by
  simp only [subnetActivityInitializeFile, hopen, halloc]
  cases subnetLoop inetPton inetPton6 yajl fread handle fuel <;> simp

/-- **A file that is loaded** is what the callbacks make of some of its events. -/
theorem subnetActivityInitializeFile_eq {path : Path} {fread : ℕ → Fread} {handle : Handle}
    (hopen : fopen path = some fread) (halloc : yajl.alloc = some handle) {fuel : ℕ}
    {t : SubnetTable} {status : SubnetActivityError}
    (h : subnetActivityInitializeFile inetPton inetPton6 fopen yajl (some path) fuel =
      some (t, status)) :
    ∃ n, subnetActivityInitialize inetPton inetPton6 (eventsBefore yajl fread handle n) =
      some (t, status) := by
  obtain ⟨ctx, hfuel, rfl, rfl⟩ := (subnetActivityInitializeFile_eq_some hopen halloc).1 h
  have hinit : ∀ {n go}, callbacksBefore inetPton inetPton6 yajl fread handle n = some (ctx, go) →
      subnetActivityInitialize inetPton inetPton6 (eventsBefore yajl fread handle n) =
        some (ctx.subnetMetadata, ctx.saStatusCode) := by
    intro n go hc
    rw [subnetActivityInitialize, show (eventsBefore yajl fread handle n).foldlM
      (subnetActivityStep inetPton inetPton6) (subnetSpecInit, true) = _ from hc]
    rfl
  cases subnetLoop_finished_iff.1 ⟨fuel, hfuel⟩ with
  | stopped _ _ hc => exact ⟨_, hinit hc⟩
  | atEnd _ _ hc => exact ⟨_, hinit hc⟩
  | error _ _ _ hc => exact ⟨_, hinit hc⟩

theorem loadsTruthfully_file {path : Path} {fread : ℕ → Fread} {handle : Handle}
    (hopen : fopen path = some fread) (halloc : yajl.alloc = some handle) :
    LoadsTruthfully inetPton inetPton6 fopen yajl (some path) ↔
      ReportedFile inetPton inetPton6 yajl fread handle := by
  rw [← reportedFile_iff]
  constructor
  · rintro ⟨fuel, t, status, hrun, htrue⟩
    obtain ⟨ctx, hfuel, rfl, rfl⟩ := (subnetActivityInitializeFile_eq_some hopen halloc).1 hrun
    refine ⟨fuel, ctx, hfuel, fun hok => ?_⟩
    obtain ⟨path', fread', handle', n, hpath, hopen', halloc', hloaded⟩ := htrue hok
    obtain rfl := Option.some.inj hpath
    obtain rfl := Option.some.inj (hopen.symm.trans hopen')
    obtain rfl := Option.some.inj (halloc.symm.trans halloc')
    exact ⟨n, hloaded⟩
  · rintro ⟨fuel, ctx, hfuel, htrue⟩
    refine ⟨fuel, _, _, (subnetActivityInitializeFile_eq_some hopen halloc).2 ⟨ctx, hfuel, rfl, rfl⟩,
      fun hok => ?_⟩
    obtain ⟨n, hloaded⟩ := htrue hok
    exact ⟨path, fread, handle, n, rfl, hopen, halloc, hloaded⟩

/-- **What is loaded is reported as it is** exactly if a file that can be opened gets a
    parser, and is one of those above. -/
theorem loadsTruthfully_iff (inetPton : List Byte → Option (BitVec 32))
    (inetPton6 : List Byte → Option (BitVec 128)) (fopen : Path → Option (ℕ → Fread))
    (yajl : Yajl Handle) (subnetfile : Option Path) :
    LoadsTruthfully inetPton inetPton6 fopen yajl subnetfile ↔
      ∀ path fread, subnetfile = some path → fopen path = some fread →
        ∃ handle, yajl.alloc = some handle ∧ ReportedFile inetPton inetPton6 yajl fread handle := by
  cases subnetfile with
  | none => exact iff_of_true ⟨0, _, _, rfl, nofun⟩ nofun
  | some path =>
    cases hopen : fopen path with
    | none =>
      refine iff_of_true ⟨0, subnetSpecInit.subnetMetadata, .openFileFailed, ?_, nofun⟩ ?_
      · simp only [subnetActivityInitializeFile, hopen]
      · rintro path' fread hpath hopen'
        obtain rfl := Option.some.inj hpath
        cases hopen.symm.trans hopen'
    | some fread =>
      cases halloc : yajl.alloc with
      | none =>
        refine iff_of_false ?_ fun h => ?_
        · rintro ⟨fuel, t, status, hrun, htrue⟩
          simp only [subnetActivityInitializeFile, hopen, halloc] at hrun
          obtain ⟨-, rfl⟩ := Prod.mk.inj (Option.some.inj hrun)
          obtain ⟨_, _, _, _, _, _, halloc', _⟩ := htrue rfl
          cases halloc.symm.trans halloc'
        · obtain ⟨_, hsome, _⟩ := h path fread rfl hopen
          cases hsome
      | some handle =>
        rw [loadsTruthfully_file hopen halloc]
        constructor
        · intro hreported path' fread' hpath hopen'
          obtain rfl := Option.some.inj hpath
          obtain rfl := Option.some.inj (hopen.symm.trans hopen')
          exact ⟨handle, rfl, hreported⟩
        · intro h
          obtain ⟨handle', hsome, hreported⟩ := h path fread rfl hopen
          obtain rfl := Option.some.inj hsome
          exact hreported

end

/-- The parser on a text of no bytes, which is no complete document. -/
def blankYajl : Yajl Unit where
  alloc := some ()
  parse := fun _ _ => ((), [], .ok)
  completeParse := fun _ => ((), [], .error)
  completeParse_error := fun _ _ h => absurd rfl h

/-- A file of which nothing can be read: it is at its end, or reading it fails. -/
def blankFile (feof : Bool) (_ : ℕ) : Fread := ⟨[], feof, Nat.zero_le _⟩

theorem eventsBefore_blank (feof : Bool) (n : ℕ) :
    eventsBefore blankYajl (blankFile feof) () n = [] :=
  List.flatMap_eq_nil_iff.2 fun _ _ => rfl

theorem reportedFile_blank {feof : Bool}
    (h : LoadsTruthfully (fun _ => none) (fun _ => none) (fun _ : Unit => some (blankFile feof))
      blankYajl (some ())) :
    ReportedFile (fun _ => none) (fun _ => none) blankYajl (blankFile feof) () :=
  (@loadsTruthfully_file _ _ _ _ (fun _ => some (blankFile feof)) _ () _ _ rfl rfl).1 h

/-- An empty file is loaded with success, and a file that cannot be read, such as a
    directory, is read for ever. -/
theorem not_loadsTruthfully_blank :
    ¬ LoadsTruthfully (fun _ => none) (fun _ => none) (fun _ : Unit => some (blankFile true))
      blankYajl (some ()) ∧
    ¬ LoadsTruthfully (fun _ => none) (fun _ => none) (fun _ : Unit => some (blankFile false))
      blankYajl (some ()) := by
  constructor
  · intro h
    cases reportedFile_blank h with
    | rejected _ hread _ => cases hread
    | lostAtEnd _ _ ho hlost =>
      rw [eventsBefore_blank] at ho
      obtain rfl := SubnetVerdict.accepted.inj ho
      exact hlost
    | lostAtError _ hread _ _ _ => cases hread
    | complete _ _ _ hcomplete _ _ _ => cases hcomplete
  · intro h
    cases reportedFile_blank h with
    | rejected _ _ hrejected =>
      rw [eventsBefore_blank] at hrejected
      cases hrejected
    | lostAtEnd _ hend _ _ => cases hend
    | lostAtError _ _ hstatus _ _ => exact hstatus rfl
    | complete _ hend _ _ _ _ _ => cases hend

end Honas
