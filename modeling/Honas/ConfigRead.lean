/-
  Reading a configuration with its includes (`src/config.c`).

  A line may include a file, or the files of a directory, which are read by the same
  code.  Only a counter of the includes around a line bounds the nesting.

  * `configReadNested` is `_config_read` with as many nested calls as it is allowed; the
    context also counts the files that are open, which the code does not look at;
  * `configReadNested_agree`: twelve nested calls are enough, and a call that returns
    leaves the counter as it was;
  * `configRead_ends`: reading always ends, with twelve open files at most.
-/
import Honas.ReadFile
import Honas.Lib.CString
import Honas.Lib.Json
import Mathlib.Data.List.DropRight
import Mathlib.Data.List.Sort

namespace Honas

open Bits CString Stopping

/-! ## The files -/

/-- The program that decompresses a file of this name (`read_file`). -/
def decompressor (filename : List Byte) : Option String :=
  let len := filename.length
  if len > 3 ∧ filename.drop (len - 3) = ascii ".gz" then some "/bin/gunzip"
  else if len > 4 ∧ filename.drop (len - 4) = ascii ".bz2" then some "/bin/bunzip2"
  else if len > 3 ∧ filename.drop (len - 3) = ascii ".xz" then some "/usr/bin/unxz"
  else none

/-- What `stat()` tells about a name. -/
inductive FileKind where
  | regular
  | directory
  | other

/-- A directory that was opened: the names in it, and whether `readdir()` fails at last. -/
structure DirStream where
  entries : List (List Byte)
  failed : Bool

/-- The files, by their names: those that `open()` opens, those that `access()` finds
    readable, what `stat()` tells, and what `opendir()` opens.  None is compressed. -/
structure FileSystem where
  openFile : List Byte → Option OpenFile
  readable : List Byte → Bool
  stat : List Byte → Option FileKind
  openDir : List Byte → Option DirStream
  uncompressed : ∀ filename, decompressor filename ≠ none → openFile filename = none

/-! ## The code -/

/-- `struct config_read_context`, with the number of open files, and the largest number
    so far. -/
structure ConfigReadContext (σ : Type) where
  configIncludeLoop : ℕ
  ptr : σ
  openFiles : ℕ
  mostOpenFiles : ℕ

variable {σ ε : Type}

def ConfigReadContext.opened (ctx : ConfigReadContext σ) : ConfigReadContext σ :=
  { ctx with
    openFiles := ctx.openFiles + 1
    mostOpenFiles := max ctx.mostOpenFiles (ctx.openFiles + 1) }

def ConfigReadContext.closed (ctx : ConfigReadContext σ) : ConfigReadContext σ :=
  { ctx with openFiles := ctx.openFiles - 1 }

/-- How the program ends: through `log_die` with a message about a line, through
    `log_passert`, in `_config_read`, or in the function that gets the items. -/
inductive ConfigExit (ε : Type) where
  | die (filename : List Byte) (lineno : ℕ) (text : String) (arg : List Byte)
  | passert (text : String) (arg : List Byte)
  | readFailed (filename : List Byte) (text : String)
  | item (exit : ε)

/-- A piece of code; the end of the program shows the context. -/
abbrev ConfigRun (σ ε : Type) : Type → Type :=
  Except (Stopped (ConfigExit ε × ConfigReadContext σ))

/-- `exit`. -/
def exit {α : Type} (ctx : ConfigReadContext σ) (e : ConfigExit ε) : ConfigRun σ ε α :=
  .error (.ended (e, ctx))

/-- `parse_item_t`: whether it knows the item, or that it ends the program.  It gets the
    name of the file, the line number, the keyword, the value and its length. -/
abbrev ParseItem (σ ε : Type) : Type :=
  List Byte → σ → ℕ → List Byte → List Byte → ℕ → Except ε (Bool × σ)

/-- `' '` or `'\t'`. -/
def isBlank (c : Byte) : Bool := c = 0x20#8 ∨ c = 0x09#8

def isKeywordChar (c : Byte) : Bool :=
  (0x30#8 ≤ c ∧ c ≤ 0x39#8) ∨ (0x41#8 ≤ c ∧ c ≤ 0x5a#8) ∨ (0x61#8 ≤ c ∧ c ≤ 0x7a#8) ∨ c = 0x5f#8

/-- The characters of the names that are read in a directory. -/
def isFileNameChar (c : Byte) : Bool := isKeywordChar c ∨ c = 0x2d#8

def slash : Byte := 0x2f#8

/-- `index_ws`. -/
def indexWs (s : List Byte) : Option ℕ :=
  match memchr s 0x20#8, memchr s 0x09#8 with
  | none, idxTab => idxTab
  | some idxSpc, none => some idxSpc
  | some idxSpc, some idxTab => if idxSpc < idxTab then some idxSpc else some idxTab

/-- `create_relative_filepath`. -/
def createRelativeFilepath (origFile relFile : List Byte) : List Byte :=
  if slash ∈ origFile then origFile.rdropWhile (· ≠ slash) ++ relFile else relFile

variable (fs : FileSystem) (readConfig : List Byte → ConfigReadContext σ → ConfigRun σ ε (ConfigReadContext σ))

/-- Reading the files of a directory, in the order of `strcmp`. -/
def includeDirectory (newfile : List Byte) (ctx : ConfigReadContext σ) :
    ConfigRun σ ε (ConfigReadContext σ) :=
  let dir := if newfile.getLast? ≠ some slash then newfile ++ [slash] else newfile
  match fs.openDir dir with
  | none => exit ctx (.passert "opendir(%s)" newfile)
  | some d =>
    let ctx := ctx.opened
    let list := d.entries.filter (·.all isFileNameChar)
    if d.failed then exit ctx (.passert "Error performing readdir" [])
    else
      (list.insertionSort (· ≤ ·)).foldlM (fun ctx name => readConfig (dir ++ name) ctx) ctx.closed

/-- The name in an `include` line, and whether the file may be missing. -/
def includeArguments (line : List Byte) : Option (List Byte × Bool) :=
  match indexWs line with
  | none => some (line, false)
  | some i =>
    if (line.drop (i + 1)).dropWhile isBlank = ascii "if_exist" then some (line.take i, true)
    else none

/-- Reading what is included, unless it may be missing and is. -/
def includeNewfile (filename : List Byte) (lineno : ℕ) (newfile : List Byte) (ifExist : Bool)
    (ctx : ConfigReadContext σ) : ConfigRun σ ε (ConfigReadContext σ) :=
  if !ifExist || fs.readable newfile then
    match fs.stat newfile with
    | none => exit ctx (.passert "stat()" [])
    | some .regular => readConfig newfile ctx
    | some .directory => includeDirectory fs readConfig newfile ctx
    | some .other =>
      exit ctx (.die filename lineno "Include '%s' is not a file or directory" newfile)
  else .ok ctx

/-- The `include` directive. -/
def includeFile (filename : List Byte) (lineno : ℕ) (line : List Byte)
    (ctx : ConfigReadContext σ) : ConfigRun σ ε (ConfigReadContext σ) :=
  let includeLoop := ctx.configIncludeLoop
  let ctx := { ctx with configIncludeLoop := includeLoop + 1 }
  if includeLoop > 10 then exit ctx (.die filename lineno "Reached max. include depth" [])
  else
    match includeArguments line with
    | none =>
      exit ctx (.die filename lineno "Syntax error in include line: '%s'"
        (line.takeWhile (!isBlank ·)))
    | some (name, ifExist) => do
      let newfile :=
        if name.head? = some slash then name else createRelativeFilepath filename name
      let ctx ← includeNewfile fs readConfig filename lineno newfile ifExist ctx
      .ok { ctx with configIncludeLoop := ctx.configIncludeLoop - 1 }

variable (parseItem : ParseItem σ ε)

/-- `config_parse_line`.  The line is a string, and stops at a terminator in it. -/
def configParseLine (filename : List Byte) (lineno : ℕ) (line : List Byte)
    (ctx : ConfigReadContext σ) : ConfigRun σ ε (ConfigReadContext σ) :=
  let line := (truncate line).dropWhile isBlank
  if line = [] then .ok ctx
  else if line.head? = some 0x23#8 ∨ line.head? = some 0x3b#8 then .ok ctx
  else
    let keyword := line.takeWhile isKeywordChar
    let line := line.dropWhile isKeywordChar
    if keyword = [] ∨ (line ≠ [] ∧ ¬ line.head?.any isBlank) then
      exit ctx (.die filename lineno "Keyword missing: '%s'" line)
    else
      let line := (line.tail.dropWhile isBlank).rdropWhile isBlank
      if keyword = ascii "include" then includeFile fs readConfig filename lineno line ctx
      else
        match parseItem filename ctx.ptr lineno keyword line line.length with
        | .error e => exit ctx (.item e)
        | .ok (true, ptr) => .ok { ctx with ptr := ptr }
        | .ok (false, ptr) =>
          exit { ctx with ptr := ptr }
            (.die filename lineno "Unknown config option '%s'" keyword)

/-- The message for a value of `read_file`. -/
def readFileMessage (err : ℤ) : String :=
  if err = -1 then "Failed reading from file"
  else if err = -2 then "Unexpected behaviour from read()"
  else if err = -3 then "File does not end with a newline character"
  else if err = -4 then "Line too long"
  else if err = -5 then "Decompression error"
  else "Unspecified error"

variable (leave : List Byte → ℕ → (line : List Byte) → ConfigReadContext σ →
  Vector Byte line.length)

/-- `_config_read`, with `depth` nested calls at most.  What is left of the lines is not
    looked at again, and may be anything. -/
def configReadNested : ℕ → List Byte → ConfigReadContext σ → ConfigRun σ ε (ConfigReadContext σ)
  | 0, _, _ => .error .running
  | depth + 1, filename, ctx => do
    let parseLine : ParseLine (ConfigReadContext σ) (ConfigExit ε × ConfigReadContext σ) :=
      ⟨fun lineno line _ ctx =>
        configParseLine fs (configReadNested depth) parseItem filename lineno line ctx,
        leave filename⟩
    let file := fs.openFile filename
    -- the file is open while its lines are handed over
    let (ctx, err) ← readFile parseLine file (if file.isSome then ctx.opened else ctx)
    let ctx := if file.isSome then ctx.closed else ctx
    if err < 0 then exit ctx (.readFailed filename (readFileMessage err)) else .ok ctx

/-- `config_read`. -/
def configRead (depth : ℕ) (filename : List Byte) (ptr : σ) :
    ConfigRun σ ε (ConfigReadContext σ) :=
  configReadNested fs parseItem leave depth filename ⟨0, ptr, 0, 0⟩

/-! ## The nesting -/

/-- The state at a nesting: the counter, and the number of open files. -/
structure AtLevel (n o : ℕ) (ctx : ConfigReadContext σ) : Prop where
  loop : ctx.configIncludeLoop = n
  openFiles : ctx.openFiles = o
  most : ctx.mostOpenFiles ≤ 12

/-- What holds when the program ends. -/
def FewOpen (e : ConfigExit ε × ConfigReadContext σ) : Prop := e.2.mostOpenFiles ≤ 12

variable {n o : ℕ} {ctx : ConfigReadContext σ}

theorem AtLevel.opened (h : AtLevel n o ctx) (ho : o < 12) : AtLevel n (o + 1) ctx.opened :=
  ⟨h.loop, congrArg (· + 1) h.openFiles, max_le h.most (by rw [h.openFiles]; exact ho)⟩

theorem AtLevel.closed (h : AtLevel n (o + 1) ctx) : AtLevel n o ctx.closed :=
  ⟨h.loop, by rw [ConfigReadContext.closed, h.openFiles, Nat.add_sub_cancel], h.most⟩

theorem AtLevel.exit {α : Type} {P : α → Prop} (h : AtLevel n o ctx) (e : ConfigExit ε) :
    Agree P FewOpen (exit ctx e) (exit ctx e) :=
  .ended h.most

section
variable {fs} {readConfig} {readConfig' : List Byte → ConfigReadContext σ → ConfigRun σ ε (ConfigReadContext σ)}

theorem includeDirectory_agree (ho : o < 12)
    (hread : ∀ filename ctx, AtLevel n o ctx →
      Agree (AtLevel n o) FewOpen (readConfig filename ctx) (readConfig' filename ctx))
    (newfile : List Byte) (hctx : AtLevel n o ctx) :
    Agree (AtLevel n o) FewOpen (includeDirectory fs readConfig newfile ctx)
      (includeDirectory fs readConfig' newfile ctx) := by
  rw [includeDirectory, includeDirectory]
  dsimp only
  cases fs.openDir (if newfile.getLast? ≠ some slash then newfile ++ [slash] else newfile) with
  | none => exact hctx.exit _
  | some d =>
    dsimp only
    by_cases hfailed : d.failed
    · rw [if_pos hfailed, if_pos hfailed]
      exact (hctx.opened ho).exit _
    · rw [if_neg hfailed, if_neg hfailed]
      exact Agree.foldlM (fun ctx name hctx => hread _ ctx hctx) _ (hctx.opened ho).closed

theorem includeNewfile_agree (ho : o < 12)
    (hread : ∀ filename ctx, AtLevel n o ctx →
      Agree (AtLevel n o) FewOpen (readConfig filename ctx) (readConfig' filename ctx))
    (filename : List Byte) (lineno : ℕ) (newfile : List Byte) (ifExist : Bool)
    (hctx : AtLevel n o ctx) :
    Agree (AtLevel n o) FewOpen (includeNewfile fs readConfig filename lineno newfile ifExist ctx)
      (includeNewfile fs readConfig' filename lineno newfile ifExist ctx) := by
  rw [includeNewfile, includeNewfile]
  split_ifs with hexist
  · cases fs.stat newfile with
    | none => exact hctx.exit _
    | some kind =>
      cases kind with
      | regular => exact hread newfile ctx hctx
      | directory => exact includeDirectory_agree ho hread newfile hctx
      | other => exact hctx.exit _
  · exact .ok hctx

/-- **An include that returns** leaves the counter as it was. -/
theorem includeFile_agree (ho : n ≤ 10 → o < 12)
    (hread : n ≤ 10 → ∀ filename ctx, AtLevel (n + 1) o ctx →
      Agree (AtLevel (n + 1) o) FewOpen (readConfig filename ctx) (readConfig' filename ctx))
    (filename : List Byte) (lineno : ℕ) (line : List Byte) (hctx : AtLevel n o ctx) :
    Agree (AtLevel n o) FewOpen (includeFile fs readConfig filename lineno line ctx)
      (includeFile fs readConfig' filename lineno line ctx) := by
  have hinner : AtLevel (n + 1) o { ctx with configIncludeLoop := ctx.configIncludeLoop + 1 } :=
    ⟨congrArg (· + 1) hctx.loop, hctx.openFiles, hctx.most⟩
  rw [includeFile, includeFile]
  dsimp only
  split_ifs with hdepth
  · exact hinner.exit _
  · rw [hctx.loop] at hdepth
    cases includeArguments line with
    | none => exact hinner.exit _
    | some arguments =>
      refine (includeNewfile_agree (ho (by omega)) (hread (by omega)) filename lineno _ _ hinner).bind
        fun ctx hctx => .ok ⟨?_, hctx.openFiles, hctx.most⟩
      rw [hctx.loop, Nat.add_sub_cancel]

variable {parseItem}

theorem configParseLine_agree (ho : n ≤ 10 → o < 12)
    (hread : n ≤ 10 → ∀ filename ctx, AtLevel (n + 1) o ctx →
      Agree (AtLevel (n + 1) o) FewOpen (readConfig filename ctx) (readConfig' filename ctx))
    (filename : List Byte) (lineno : ℕ) (line : List Byte) (hctx : AtLevel n o ctx) :
    Agree (AtLevel n o) FewOpen
      (configParseLine fs readConfig parseItem filename lineno line ctx)
      (configParseLine fs readConfig' parseItem filename lineno line ctx) := by
  rw [configParseLine, configParseLine]
  dsimp only
  split_ifs with hempty hcomment hkeyword hinclude
  · exact .ok hctx
  · exact .ok hctx
  · exact hctx.exit _
  · exact includeFile_agree ho hread filename lineno _ hctx
  · have hptr : ∀ ptr : σ, AtLevel n o { ctx with ptr := ptr } := fun _ =>
      ⟨hctx.loop, hctx.openFiles, hctx.most⟩
    split
    · exact hctx.exit _
    · exact .ok (hptr _)
    · exact (hptr _).exit _

end

/-- No file has too many lines for the line number of `read_file`. -/
def FileSystem.LinesFit : Prop :=
  ∀ filename, ∀ f ∈ fs.openFile filename, (deliveredLines f.content).length < 2 ^ 31

variable {fs parseItem leave}

/-- **A file is read** with as many nested calls as the counter leaves, and the counter is
    then as it was. -/
theorem configReadNested_agree (hfs : fs.LinesFit) : ∀ (depth depth' n o : ℕ)
    (filename : List Byte) (ctx : ConfigReadContext σ), AtLevel n o ctx → o ≤ n → n ≤ 11 →
      12 ≤ depth + n → 12 ≤ depth' + n →
      Agree (AtLevel n o) FewOpen (configReadNested fs parseItem leave depth filename ctx)
        (configReadNested fs parseItem leave depth' filename ctx)
  | 0, _, _, _, _, _, _, _, hn, hdepth, _ => by omega
  | _, 0, _, _, _, _, _, _, hn, _, hdepth' => by omega
  | depth + 1, depth' + 1, n, o, filename, ctx, hctx, ho, hn, hdepth, hdepth' => by
    rw [configReadNested, configReadNested]
    dsimp only
    have hread : n ≤ 10 → ∀ filename ctx, AtLevel (n + 1) (o + 1) ctx →
        Agree (AtLevel (n + 1) (o + 1)) FewOpen
          (configReadNested fs parseItem leave depth filename ctx)
          (configReadNested fs parseItem leave depth' filename ctx) :=
      fun _ filename ctx hctx => configReadNested_agree hfs depth depth' _ _ filename ctx hctx
        (by omega) (by omega) (by omega) (by omega)
    cases hfile : fs.openFile filename with
    | none => exact hctx.exit _
    | some f =>
      refine Agree.bind (readFile_agree (I := AtLevel n (o + 1)) (fun lineno line ctx hctx =>
        configParseLine_agree (by omega) hread filename lineno line hctx) (fun f' hf' => ?_)
        (hctx.opened (by omega))) fun r hr => ?_
      · exact hfs filename f' (hfile ▸ hf')
      · obtain ⟨ctx, err⟩ := r
        simp only [Option.isSome_some, if_true]
        split_ifs with herr
        · exact hr.closed.exit _
        · exact .ok hr.closed

/-- **Reading a configuration ends**: it returns with the counter as at the start and no file
    open, or ends the program; at most twelve files are open at once. -/
theorem configRead_ends (hfs : fs.LinesFit) (filename : List Byte) (ptr : σ) :
    ∃ run : ConfigRun σ ε (ConfigReadContext σ),
      (∀ depth, 12 ≤ depth → configRead fs parseItem leave depth filename ptr = run) ∧
      Ends (fun ctx => ctx.configIncludeLoop = 0 ∧ ctx.openFiles = 0 ∧ ctx.mostOpenFiles ≤ 12)
        (fun e => e.2.mostOpenFiles ≤ 12) run := by
  have hagree : ∀ depth, 12 ≤ depth → Agree (AtLevel 0 0) FewOpen
      (configRead fs parseItem leave 12 filename ptr)
      (configRead fs parseItem leave depth filename ptr) := fun depth hdepth =>
    configReadNested_agree hfs 12 depth 0 0 filename _ ⟨rfl, rfl, Nat.zero_le _⟩ le_rfl
      (Nat.zero_le _) le_rfl hdepth
  refine ⟨_, fun depth hdepth => (hagree depth hdepth).eq.symm, ?_⟩
  exact (hagree 12 le_rfl).ends.mono (fun ctx h => ⟨h.loop, h.openFiles, h.most⟩) fun e h => h

/-! ### Two configurations -/

/-- A single file. -/
def singleFile (name content : List Byte) (h : decompressor name = none) : FileSystem where
  openFile filename := if filename = name then some ⟨content, fun _ => .bytes content.length⟩ else none
  readable filename := filename = name
  stat filename := if filename = name then some .regular else none
  openDir _ := none
  uncompressed filename hne := if_neg fun heq : filename = name => hne (by rw [heq, h])

theorem singleFile_linesFit {name content : List Byte} (h : decompressor name = none)
    (hlines : (deliveredLines content).length < 2 ^ 31) : (singleFile name content h).LinesFit := by
  intro filename f hf
  rw [singleFile] at hf
  dsimp only at hf
  split_ifs at hf with hname
  · cases hf
    exact hlines
  · cases hf

/-- A file that includes itself. -/
def selfInclude : FileSystem := singleFile [0x61] (ascii "include a\n") (by decide)

/-- A file that includes a file that is missing. -/
def missingInclude : FileSystem := singleFile [0x61] (ascii "include b\n") (by decide)

/-- No items, and lines that are cleared. -/
def noItem : ParseItem Unit Empty := fun _ ptr _ _ _ _ => .ok (false, ptr)

def clear (_ : List Byte) (_ : ℕ) (line : List Byte) (_ : ConfigReadContext Unit) :
    Vector Byte line.length := Vector.replicate line.length 0

/-- The file that includes itself is open twelve times at the end. -/
example : configRead selfInclude noItem clear 12 [0x61] () =
    exit ⟨12, (), 12, 12⟩ (.die [0x61] 1 "Reached max. include depth" []) := rfl

theorem configRead_ends_selfInclude : selfInclude.LinesFit ∧
    ∃ run : ConfigRun Unit Empty (ConfigReadContext Unit),
      (∀ depth, 12 ≤ depth → configRead selfInclude noItem clear depth [0x61] () = run) ∧
      Ends (fun ctx => ctx.configIncludeLoop = 0 ∧ ctx.openFiles = 0 ∧ ctx.mostOpenFiles ≤ 12)
        (fun e => e.2.mostOpenFiles ≤ 12) run := by
  have hfs : selfInclude.LinesFit := singleFile_linesFit _ (by decide)
  exact ⟨hfs, configRead_ends hfs [0x61] ()⟩

/-- The program ends through `log_die`, or in the function that gets the items. -/
def ConfigExit.ByDie : ConfigExit ε → Prop
  | .die _ _ _ _ | .item _ => True
  | .passert _ _ | .readFailed _ _ => False

/-- A missing file ends the program through `log_passert`. -/
theorem configRead_missingInclude (depth : ℕ) :
    configRead missingInclude noItem clear (depth + 1) [0x61] () =
      exit ⟨1, (), 1, 1⟩ (.passert "stat()" []) := rfl

theorem not_configRead_returns_or_dies : ¬ ∀ (fs : FileSystem) (parseItem : ParseItem Unit Empty)
    (filename : List Byte), ∃ run : ConfigRun Unit Empty (ConfigReadContext Unit),
      (∃ enough, ∀ depth, enough ≤ depth → configRead fs parseItem clear depth filename () = run) ∧
      Ends (fun ctx => ctx.configIncludeLoop = 0 ∧ ctx.mostOpenFiles ≤ 12)
        (fun e => e.1.ByDie ∧ e.2.mostOpenFiles ≤ 12) run := by
  intro h
  obtain ⟨run, ⟨enough, hrun⟩, hends⟩ := h missingInclude noItem [0x61]
  rw [← hrun (enough + 1) (Nat.le_succ _), configRead_missingInclude] at hends
  exact hends.1

end Honas
