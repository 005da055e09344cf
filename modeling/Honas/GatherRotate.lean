/-
  Rotating the state (`create_state`, `finalize_state` and `recheck_handler` in
  `src/bin/honas_gather.c`).

  The collector looks at the clock every minute.  Once the period has ended, the
  state is saved to a file named after the end of its period, and a new state is
  created for the period in which the clock is then.  When the collector is stopped
  it saves the active state, and loads it when it is started again.

  * `rotations_disjoint`: whatever the clock shows and whatever configuration is
    loaded, the periods do not overlap and the file names differ.
-/
import Honas.GatherDecode
import Honas.Lib.Calendar
import Honas.StateReload

namespace Honas

open Bits

/-- `honas_gather_config_t`, as far as `create_state` uses it. -/
structure GatherConfig extends StateParams where
  periodLength : BitVec 32

/-- `create_state`; `none` when the program stops. -/
def createState (config : GatherConfig) (periodBegin : BitVec 64) : Option HonasState :=
  -- the remainder of a division by zero
  if config.periodLength = 0 then none
  else
    let periodLength := config.periodLength.setWidth 64
    let periodEnd := periodBegin - periodBegin % periodLength + periodLength
    match honasStateCreate config.toStateParams with
    | some (.ok state) =>
      let state := (state.setHeader .periodBegin periodBegin.toNat).setHeader .periodEnd
        periodEnd.toNat
      if state.header .firstRequest = 0 ∧ state.header .lastRequest = 0 ∧
          state.header .numberOfRequests = 0 ∧ state.header .estimatedNumberOfClients = 0 ∧
          state.header .estimatedNumberOfHostNames = 0 then some state
      else none
    | _ => none

/-! ## File names -/

/-- A number below 100, in two digits. -/
def twoDigits (n : ℕ) : List Char := [Nat.digitChar (n / 10), Nat.digitChar (n % 10)]

/-- `strftime` with the format `%FT%T.hs`. -/
def strftimePeriod (tm : Calendar.Tm) : List Char :=
  (Int.repr tm.year).toList ++ ['-'] ++ twoDigits tm.mon ++ ['-'] ++ twoDigits tm.mday ++ ['T'] ++
    twoDigits tm.hour ++ [':'] ++ twoDigits tm.min ++ [':'] ++ twoDigits tm.sec ++ ['.', 'h', 's']

/-- `sizeof(period_file_name)`. -/
def sizeofPeriodFileName : ℕ := 23

/-- The file name that `finalize_state` makes of the end of a period; `none` if it
    does not fit in the buffer, whose contents are then undefined. -/
@[irreducible] def periodFileName (periodEnd : ℤ) : Option (List Char) :=
  let name := strftimePeriod (Calendar.gmtime periodEnd)
  if name.length < sizeofPeriodFileName then some name else none

/-- The file name of a state; `time_t` is signed. -/
def HonasState.fileName (state : HonasState) : Option (List Char) :=
  periodFileName (BitVec.ofNat 64 (state.header .periodEnd)).toInt

/-! ## Rotation -/

/-- What a rotation does: the state that `finalize_state` saves and its file name, the
    configuration that is loaded, and the state that is created. -/
structure Rotation where
  finalized : HonasState
  fileName : Option (List Char)
  config : GatherConfig
  created : HonasState

/-- `recheck_handler`, at the time `now`, for the configuration and the subnets that
    are then loaded. -/
def recheckHandler (now : BitVec 64) (config : GatherConfig) (subnets : SubnetActivity)
    (ctx : Capture) : Option (Capture × Option Rotation) :=
  let wait := (BitVec.ofNat 64 (ctx.currentActiveState.header .periodEnd) - now).toInt
  if wait ≤ 0 then do
    let state ← createState config now
    some ({ ctx with
      currentActiveState := state
      fprWarningPassed := false
      subnetMetadata := if ctx.aggregateSubnets then subnets else ctx.subnetMetadata },
      some ⟨ctx.currentActiveState, ctx.currentActiveState.fileName, config, state⟩)
  else some (ctx, none)

/-- `close_state`: the file that is written. -/
def closeState (estimate : ℚ → ℕ → BitVec 64) (state : HonasState) : Option (List Byte) :=
  (honasStatePersist estimate state).map Prod.snd

/-- `try_open_active_state`: the state, if there is a file; the program stops if the
    file is not a valid one. -/
def tryOpenActiveState (file : Option (List Byte)) : Option (Option HonasState) :=
  match file with
  | none => some none
  | some bytes =>
    match honasStateLoad (some bytes) with
    | some (.ok state) => some (some state)
    | _ => none

/-- The options of the collector, and the subnets that are loaded if they are aggregated. -/
structure Options where
  aggregate : Bool
  subnets : SubnetActivity
  dryRun : Bool

/-- The context of a collector when it starts. -/
def Capture.start (options : Options) (state : HonasState) : Capture where
  aggregateSubnets := options.aggregate
  subnetMetadata := options.subnets
  dryRun := if options.dryRun then some ⟨hllInit, hllInit, 0, 0⟩ else none
  fprWarningPassed := false
  currentActiveState := state
  instData := ⟨0, 0, 0, 0, 0, 0, 0, 0, 0, 0⟩

/-- What happens to a collector: a message is decoded, the clock is looked at, or it is
    stopped and started again. -/
inductive CollectorEvent where
  | message (now : BitVec 64) (m : DnstapMessage)
  | recheck (now : BitVec 64) (config : GatherConfig) (subnets : SubnetActivity)
  | restart (options : Options)

section

variable (sha256 : List Byte → Digest) (ldnsWire2pkt : List Byte → Option (List LdnsRr))
  (fprExceeds : ℕ → ℕ → ℕ → Bool) (estimate : ℚ → ℕ → BitVec 64)

/-- One event, after some rotations. -/
def collectorStep (acc : Capture × List Rotation) :
    CollectorEvent → Option (Capture × List Rotation)
  | .message now m =>
    ((decodeDnstapMessage sha256 ldnsWire2pkt fprExceeds now acc.1 m).map Prod.snd).map
      fun ctx => (ctx, acc.2)
  | .recheck now config subnets =>
    (recheckHandler now config subnets acc.1).map
      fun (ctx, rotation) => (ctx, acc.2 ++ rotation.toList)
  | .restart options => do
    let file ← closeState estimate acc.1.currentActiveState
    let state ← tryOpenActiveState (some file)
    state.map fun state => (.start options state, acc.2)

/-- A run of the collector: the context and the rotations. -/
def collectorRun (ctx : Capture) (events : List CollectorEvent) : Option (Capture × List Rotation) :=
  events.foldlM (collectorStep sha256 ldnsWire2pkt fprExceeds estimate) (ctx, [])

end

/-! ## Names and times -/

theorem digitChar_injective {m n : ℕ} (hm : m < 10) (hn : n < 10)
    (h : Nat.digitChar m = Nat.digitChar n) : m = n := by
  have hc := congrArg Char.toNat h
  rw [Nat.toNat_digitChar_of_lt_ten hm, Nat.toNat_digitChar_of_lt_ten hn] at hc
  omega

theorem twoDigits_injective {m n : ℕ} (hm : m < 100) (hn : n < 100) (h : twoDigits m = twoDigits n) :
    m = n := by
  obtain ⟨htens, hones⟩ := List.cons.inj h
  have h1 := digitChar_injective (by omega) (by omega) htens
  have h2 := digitChar_injective (by omega) (by omega) (List.cons.inj hones).1
  omega

/-- Parts of a fixed length after one of any length. -/
theorem append_two_inj {a b : List Char} {m n : ℕ} {sep : Char} (hm : m < 100) (hn : n < 100)
    (h : a ++ [sep] ++ twoDigits m = b ++ [sep] ++ twoDigits n) : a = b ∧ m = n := by
  obtain ⟨h1, h2⟩ := List.append_inj' h rfl
  exact ⟨(List.append_inj' h1 rfl).1, twoDigits_injective hm hn h2⟩

/-- **Different times have different file names.** -/
theorem periodFileName_injective {s t : ℤ} {name : List Char} (hs : periodFileName s = some name)
    (ht : periodFileName t = some name) : s = t := by
  have hname : ∀ {u : ℤ}, periodFileName u = some name →
      strftimePeriod (Calendar.gmtime u) = name := by
    intro u hu
    unfold periodFileName at hu
    dsimp only at hu
    split_ifs at hu
    exact Option.some.inj hu
  have h := (hname hs).trans (hname ht).symm
  obtain ⟨hmon, hmday, hhour, hmin, hsec⟩ := Calendar.gmtime_ranges s
  obtain ⟨hmon', hmday', hhour', hmin', hsec'⟩ := Calendar.gmtime_ranges t
  refine Calendar.gmtime_injective ?_
  generalize Calendar.gmtime s = a at *
  generalize Calendar.gmtime t = b at *
  obtain ⟨h, -⟩ := List.append_inj' h rfl
  obtain ⟨h, esec⟩ := append_two_inj (by omega) (by omega) h
  obtain ⟨h, emin⟩ := append_two_inj (by omega) (by omega) h
  obtain ⟨h, ehour⟩ := append_two_inj (by omega) (by omega) h
  obtain ⟨h, emday⟩ := append_two_inj (by omega) (by omega) h
  obtain ⟨h, emon⟩ := append_two_inj (by omega) (by omega) h
  have eyear : a.year = b.year := Int.repr_injective (String.toList_injective h)
  cases a
  cases b
  simp only at eyear emon emday ehour emin esec
  subst eyear emon emday ehour emin esec
  rfl

theorem fileName_eq {s : HonasState} (h : s.header .periodEnd < 2 ^ 63) :
    s.fileName = periodFileName (s.header .periodEnd) := by
  rw [HonasState.fileName, BitVec.toInt_eq_toNat_cond, BitVec.toNat_ofNat,
    Nat.mod_eq_of_lt (by omega), if_pos (by omega)]

/-- Up to the year 9999 there is a file name. -/
theorem periodFileName_isSome {t : ℤ} (h0 : 0 ≤ t) (h : t < 253402300800) :
    (periodFileName t).isSome = true := by
  obtain ⟨hle, hle'⟩ := Calendar.gmtime_year_le h0 h
  have hyear : (Int.repr (Calendar.gmtime t).year).toList.length ≤ 4 := by
    obtain ⟨year, hy⟩ := Int.eq_ofNat_of_zero_le (show 0 ≤ (Calendar.gmtime t).year by omega)
    rw [hy]
    exact Nat.repr_length year 4 (by decide) (by omega)
  have hlen : (strftimePeriod (Calendar.gmtime t)).length < sizeofPeriodFileName := by
    simp only [strftimePeriod, twoDigits, List.length_append, List.length_cons, List.length_nil,
      sizeofPeriodFileName]
    omega
  rw [periodFileName, if_pos hlen]
  rfl
/-! ## Periods -/

/-- The times that the clock may show.  `time` returns the seconds since 1970, far from
    the end of its range. -/
def ClockReading (now : BitVec 64) : Prop := now.toNat < 2 ^ 63 - 2 ^ 32

/-- A period that starts at `now`, for a period length. -/
structure PeriodFrom (now length : ℕ) (s : HonasState) : Prop where
  begins : s.header .periodBegin = now
  begin_lt : now < s.header .periodEnd
  end_le : s.header .periodEnd ≤ now + length
  dvd : length ∣ s.header .periodEnd

/-- The end of a period, as `create_state` computes it. -/
theorem toNat_periodEnd {now : BitVec 64} (hnow : ClockReading now) {length : BitVec 32}
    (hl : length ≠ 0) :
    (now - now % length.setWidth 64 + length.setWidth 64).toNat =
      (now.toNat / length.toNat + 1) * length.toNat := by
  have hpos : 0 < length.toNat := by
    rw [Nat.pos_iff_ne_zero]
    exact fun h => hl (BitVec.eq_of_toNat_eq h)
  have hlt := length.isLt
  have hmod := Nat.mod_lt now.toNat hpos
  have hdiv := Nat.div_add_mod now.toNat length.toNat
  have hlength : (length.setWidth 64).toNat = length.toNat := by
    rw [BitVec.toNat_setWidth]
    exact Nat.mod_eq_of_lt (by omega)
  have hmodle : now.toNat % length.toNat ≤ now.toNat := Nat.mod_le _ _
  have hsub : (now - now % length.setWidth 64).toNat = now.toNat - now.toNat % length.toNat := by
    rw [BitVec.toNat_sub_of_le, BitVec.toNat_umod, hlength]
    rw [BitVec.le_def, BitVec.toNat_umod, hlength]
    exact hmodle
  unfold ClockReading at hnow
  rw [BitVec.toNat_add, hsub, hlength, Nat.mod_eq_of_lt (by omega), Nat.succ_mul, Nat.mul_comm]
  omega

variable {p : StateParams}

/-- The fields that are set after a state has been created. -/
theorem Active.setHeader {s : HonasState} (h : Active p s) {f : HeaderField}
    (hf : f.isConfig = false) (v : ℕ) : Active p (s.setHeader f v) :=
  ⟨h.toShaped.setHeader hf v, h.counts⟩

/-- **Creating a state** for the period of the clock. -/
theorem createState_spec {config : GatherConfig} {now : BitVec 64} (hnow : ClockReading now)
    {s : HonasState} (hc : createState config now = some s) :
    config.toStateParams.Ok ∧ Active config.toStateParams s ∧
      PeriodFrom now.toNat config.periodLength.toNat s ∧ s.header .periodEnd < 2 ^ 63 := by
  rw [createState] at hc
  by_cases h0 : config.periodLength = 0
  · rw [if_pos h0] at hc
    cases hc
  rw [if_neg h0] at hc
  dsimp only at hc
  rcases hcreate : honasStateCreate config.toStateParams with _ | _ | s₀
  · rw [hcreate] at hc; cases hc
  · rw [hcreate] at hc; cases hc
  rw [hcreate] at hc
  dsimp only at hc
  split_ifs at hc
  have hok := ok_of_create hcreate
  obtain ⟨s₀', hcreate', h, ho⟩ := honasStateCreate_represents hok
  obtain rfl : s₀ = s₀' := Except.ok.inj (Option.some.inj (hcreate.symm.trans hcreate'))
  have hact := (Active.of_owned h ho).1
  have hact₁ := hact.setHeader (f := .periodBegin) rfl now.toNat
  have hend := toNat_periodEnd hnow h0
  set periodEnd := now - now % config.periodLength.setWidth 64 + config.periodLength.setWidth 64
  have hact₂ := hact₁.setHeader (f := .periodEnd) rfl periodEnd.toNat
  obtain rfl := Option.some.inj hc
  have hbegin : ((s₀.setHeader .periodBegin now.toNat).setHeader .periodEnd
      periodEnd.toNat).header .periodBegin = now.toNat := by
    rw [header_setHeader hact₁.toShaped, if_neg (by decide), header_setHeader hact.toShaped,
      if_pos rfl]
    exact Nat.mod_eq_of_lt now.isLt
  have hfield : ((s₀.setHeader .periodBegin now.toNat).setHeader .periodEnd
      periodEnd.toNat).header .periodEnd = periodEnd.toNat := by
    rw [header_setHeader hact₁.toShaped, if_pos rfl]
    exact Nat.mod_eq_of_lt periodEnd.isLt
  have hdiv := Nat.div_add_mod now.toNat config.periodLength.toNat
  have hpos : 0 < config.periodLength.toNat :=
    Nat.pos_iff_ne_zero.2 fun h => h0 (BitVec.eq_of_toNat_eq h)
  have hmod := Nat.mod_lt now.toNat hpos
  have hlt := config.periodLength.isLt
  have hsucc := Nat.add_one_mul (now.toNat / config.periodLength.toNat) config.periodLength.toNat
  rw [Nat.mul_comm] at hdiv
  unfold ClockReading at hnow
  refine ⟨hok, hact₂, ⟨hbegin, ?_, ?_, ?_⟩, ?_⟩ <;> rw [hfield, hend]
  · omega
  · omega
  · exact Nat.dvd_mul_left _ _
  · omega

/-- The clock has reached the end of a period. -/
theorem wait_nonpos_iff {periodEnd : ℕ} (hend : periodEnd < 2 ^ 63) {now : BitVec 64}
    (hnow : ClockReading now) : (BitVec.ofNat 64 periodEnd - now).toInt ≤ 0 ↔ periodEnd ≤ now.toNat := by
  unfold ClockReading at hnow
  rw [BitVec.toInt_eq_toNat_cond, BitVec.toNat_sub, BitVec.toNat_ofNat]
  split_ifs <;> omega
section

variable {ctx : Capture} (hend : ctx.currentActiveState.header .periodEnd < 2 ^ 63)
  {now : BitVec 64} (hnow : ClockReading now) {config : GatherConfig} {subnets : SubnetActivity}

include hend hnow

theorem recheckHandler_of_due (hdue : ctx.currentActiveState.header .periodEnd ≤ now.toNat)
    {state : HonasState} (hc : createState config now = some state) :
    recheckHandler now config subnets ctx = some ({ ctx with
      currentActiveState := state
      fprWarningPassed := false
      subnetMetadata := if ctx.aggregateSubnets then subnets else ctx.subnetMetadata },
      some ⟨ctx.currentActiveState, ctx.currentActiveState.fileName, config, state⟩) := by
  rw [recheckHandler, if_pos ((wait_nonpos_iff hend hnow).2 hdue), hc]
  rfl

theorem recheckHandler_of_wait (hwait : ¬ctx.currentActiveState.header .periodEnd ≤ now.toNat) :
    recheckHandler now config subnets ctx = some (ctx, none) := by
  rw [recheckHandler, if_neg (mt (wait_nonpos_iff hend hnow).1 hwait)]

end

/-! ## Runs -/

/-- The clock readings of an event. -/
def CollectorEvent.ClockOk : CollectorEvent → Prop
  | .message _ _ => True
  | .recheck now _ _ => ClockReading now
  | .restart _ => True

/-- A rotation starts a new period after the end of the old one. -/
structure Rotation.Sound (r : Rotation) : Prop where
  fileName : r.fileName = r.finalized.fileName
  end_lt : r.finalized.header .periodEnd < 2 ^ 63
  after : r.finalized.header .periodEnd ≤ r.created.header .periodBegin
  period : PeriodFrom (r.created.header .periodBegin) r.config.periodLength.toNat r.created

theorem Rotation.Sound.fileName_eq {r : Rotation} (h : r.Sound) :
    r.fileName = periodFileName (r.finalized.header .periodEnd) := by
  rw [h.fileName, Honas.fileName_eq h.end_lt]

/-- The invariant of a run: the ends of the finalized periods increase, and the current
    one is last. -/
structure Collecting (acc : Capture × List Rotation) : Prop where
  serving : ∃ p : StateParams, p.Ok ∧ Serving p acc.1
  end_lt : acc.1.currentActiveState.header .periodEnd < 2 ^ 63
  sound : ∀ r ∈ acc.2, r.Sound
  increasing : acc.2.Pairwise fun r r' =>
    r.finalized.header .periodEnd < r'.finalized.header .periodEnd
  before : ∀ r ∈ acc.2,
    r.finalized.header .periodEnd < acc.1.currentActiveState.header .periodEnd

theorem exists_dryRun (options : Options) (state : HonasState) :
    ∃ dryrun : Option ValidDryRun,
      (Capture.start options state).dryRun = dryrun.map ValidDryRun.counters := by
  cases h : options.dryRun with
  | false => exact ⟨none, by rw [Capture.start, h]; rfl⟩
  | true =>
    refine ⟨some ⟨⟨hllInit, hllInit, 0, 0⟩, ⟨_, hllInit_regs⟩, ⟨_, hllInit_regs⟩⟩, ?_⟩
    rw [Capture.start, h]
    rfl

/-- A run starts with a state that is created. -/
theorem collecting_start (options : Options) {config : GatherConfig} {now : BitVec 64}
    (hnow : ClockReading now) {s : HonasState} (hc : createState config now = some s) :
    Collecting (.start options s, []) := by
  obtain ⟨hok, hact, -, hend⟩ := createState_spec hnow hc
  exact ⟨⟨_, hok, hact, exists_dryRun options s⟩, hend, fun r hr => absurd hr List.not_mem_nil, .nil,
    fun r hr => absurd hr List.not_mem_nil⟩

/-- The state and the context may change, but not the period. -/
theorem Collecting.samePeriod {acc : Capture × List Rotation} (h : Collecting acc) {ctx : Capture}
    (hserving : ∃ p : StateParams, p.Ok ∧ Serving p ctx)
    (hsame : SamePeriod acc.1.currentActiveState ctx.currentActiveState) :
    Collecting (ctx, acc.2) := by
  refine ⟨hserving, ?_, h.sound, h.increasing, fun r hr => ?_⟩
  · rw [hsame.periodEnd]
    exact h.end_lt
  · rw [hsame.periodEnd]
    exact h.before r hr

/-- A rotation is last. -/
theorem Collecting.rotate {acc : Capture × List Rotation} (h : Collecting acc) {ctx : Capture}
    {r : Rotation} (hserving : ∃ p : StateParams, p.Ok ∧ Serving p ctx)
    (hend : ctx.currentActiveState.header .periodEnd < 2 ^ 63) (hsound : r.Sound)
    (hold : r.finalized = acc.1.currentActiveState) (hnew : r.created = ctx.currentActiveState) :
    Collecting (ctx, acc.2 ++ [r]) := by
  have hlt : r.finalized.header .periodEnd < ctx.currentActiveState.header .periodEnd := by
    rw [← hnew]
    exact hsound.after.trans_lt hsound.period.begin_lt
  refine ⟨hserving, hend, ?_, ?_, ?_⟩
  · intro r' hr'
    rcases List.mem_append.1 hr' with hr' | hr'
    · exact h.sound r' hr'
    · rw [List.mem_singleton.1 hr']
      exact hsound
  · refine List.pairwise_append.2 ⟨h.increasing, List.pairwise_singleton _ _, fun r' hr' r'' hr'' => ?_⟩
    rw [List.mem_singleton.1 hr'', hold]
    exact h.before r' hr'
  · intro r' hr'
    rcases List.mem_append.1 hr' with hr' | hr'
    · exact ((h.before r' hr').trans_eq (by rw [hold])).trans hlt
    · rw [List.mem_singleton.1 hr']
      exact hlt

/-- **One look at the clock.** -/
theorem Collecting.recheck {acc : Capture × List Rotation} (h : Collecting acc) {ctx : Capture}
    {now : BitVec 64} (hnow : ClockReading now) {config : GatherConfig} {subnets : SubnetActivity}
    {rotation : Option Rotation}
    (hr : recheckHandler now config subnets acc.1 = some (ctx, rotation)) :
    Collecting (ctx, acc.2 ++ rotation.toList) := by
  have hend := h.end_lt
  obtain ⟨p, -, hserving⟩ := h.serving
  rw [recheckHandler] at hr
  by_cases hwait : (BitVec.ofNat 64 (acc.1.currentActiveState.header .periodEnd) - now).toInt ≤ 0
  · rw [if_pos hwait] at hr
    have hdue := (wait_nonpos_iff hend hnow).1 hwait
    obtain ⟨state, hc, hr⟩ := Option.bind_eq_some_iff.1 hr
    obtain ⟨rfl, rfl⟩ := Prod.mk.inj (Option.some.inj hr)
    obtain ⟨hok, hact, hperiod, hend'⟩ := createState_spec hnow hc
    have hafter := hdue.trans_eq hperiod.begins.symm
    rw [← hperiod.begins] at hperiod
    have hsound : Rotation.Sound ⟨acc.1.currentActiveState, acc.1.currentActiveState.fileName,
        config, state⟩ := ⟨by dsimp only, hend, hafter, hperiod⟩
    exact h.rotate ⟨_, hok, hact, hserving.dryRun⟩ hend' hsound rfl rfl
  · rw [if_neg hwait] at hr
    obtain ⟨rfl, rfl⟩ := Prod.mk.inj (Option.some.inj hr)
    rw [Option.toList_none, List.append_nil]
    exact h

/-- **A restart** keeps the period. -/
theorem Collecting.restartEvent {acc : Capture × List Rotation} (h : Collecting acc)
    {estimate : ℚ → ℕ → BitVec 64} (options : Options) {file : List Byte} {state : HonasState}
    (hf : closeState estimate acc.1.currentActiveState = some file)
    (hs : tryOpenActiveState (some file) = some (some state)) :
    Collecting (.start options state, acc.2) := by
  obtain ⟨p, hok, hserving⟩ := h.serving
  obtain ⟨s', loaded, hp, hl, hact, hheader⟩ := hserving.active.reload estimate hok
  rw [closeState, hp] at hf
  obtain rfl := Option.some.inj hf
  simp only [tryOpenActiveState, hl] at hs
  obtain rfl := Option.some.inj (Option.some.inj hs)
  exact h.samePeriod ⟨p, hok, hact, exists_dryRun options loaded⟩
    ⟨hheader .periodBegin rfl, hheader .periodEnd rfl⟩

section

variable {sha256 : List Byte → Digest} {ldnsWire2pkt : List Byte → Option (List LdnsRr)}
  {fprExceeds : ℕ → ℕ → ℕ → Bool} {estimate : ℚ → ℕ → BitVec 64}

/-- One event. -/
theorem Collecting.step {acc acc' : Capture × List Rotation} {e : CollectorEvent}
    (h : Collecting acc) (he : e.ClockOk)
    (hstep : collectorStep sha256 ldnsWire2pkt fprExceeds estimate acc e = some acc') :
    Collecting acc' := by
  cases e with
  | message now m =>
    obtain ⟨p, hok, hserving⟩ := h.serving
    obtain ⟨ctx', hm, rfl⟩ := Option.map_eq_some_iff.1 hstep
    obtain ⟨hsome, hconv⟩ := decodeDnstapMessage_spec sha256 ldnsWire2pkt fprExceeds hok now
      hserving m
    obtain ⟨ctx₁, hm₁, hserving', -, hperiod, -⟩ := hsome (hconv ctx' hm)
    obtain rfl : ctx' = ctx₁ := Option.some.inj (hm.symm.trans hm₁)
    exact h.samePeriod ⟨p, hok, hserving'⟩ hperiod
  | recheck now config subnets =>
    obtain ⟨⟨ctx', rotation⟩, hr, rfl⟩ := Option.map_eq_some_iff.1 hstep
    exact Collecting.recheck h he hr
  | restart options =>
    obtain ⟨file, hf, hstep⟩ := Option.bind_eq_some_iff.1 hstep
    obtain ⟨loaded, hl, hstep⟩ := Option.bind_eq_some_iff.1 hstep
    obtain ⟨state, rfl, rfl⟩ := Option.map_eq_some_iff.1 hstep
    exact h.restartEvent options hf hl

/-- **Periods never overlap and file names never clash.**  A created period starts at
    the clock and ends at the next multiple of the period length.  In every run, with
    any restarts, the ends of the finalized periods increase, their file names differ,
    and a new period starts after the old one. -/
theorem rotations_disjoint {options : Options} {config : GatherConfig} {now : BitVec 64}
    (hnow : ClockReading now) {s : HonasState} (hc : createState config now = some s)
    {events : List CollectorEvent} (hclock : ∀ e ∈ events, e.ClockOk) {ctx : Capture}
    {rotations : List Rotation}
    (hrun : collectorRun sha256 ldnsWire2pkt fprExceeds estimate (.start options s) events =
      some (ctx, rotations)) :
    PeriodFrom now.toNat config.periodLength.toNat s ∧
    (rotations.Pairwise fun r r' =>
      r.finalized.header .periodEnd < r'.finalized.header .periodEnd ∧
      ∀ name, r.fileName = some name → r'.fileName ≠ some name) ∧
    ∀ r ∈ rotations, r.finalized.header .periodEnd ≤ r.created.header .periodBegin ∧
      PeriodFrom (r.created.header .periodBegin) r.config.periodLength.toNat r.created ∧
      (r.finalized.header .periodEnd < 253402300800 → r.fileName.isSome = true) := by
  have h : Collecting (ctx, rotations) :=
    Run.inv_of_run (fun _ _ _ => Collecting.step) (collecting_start options hnow hc) hclock hrun
  refine ⟨(createState_spec hnow hc).2.2.1, ?_, fun r hr => ?_⟩
  · refine h.increasing.imp_of_mem fun {r r'} hr hr' hlt => ⟨hlt, fun name hn hn' => ?_⟩
    rw [(h.sound r hr).fileName_eq] at hn
    rw [(h.sound r' hr').fileName_eq] at hn'
    have := periodFileName_injective hn hn'
    omega
  · refine ⟨(h.sound r hr).after, (h.sound r hr).period, fun hlt => ?_⟩
    rw [(h.sound r hr).fileName_eq]
    exact periodFileName_isSome (by omega) (by omega)

/-- Creating a state does not fail for parameters that pass the assertions. -/
theorem exists_createState {config : GatherConfig} (hok : config.toStateParams.Ok)
    (hl : config.periodLength ≠ 0) (now : BitVec 64) : ∃ s, createState config now = some s := by
  obtain ⟨s, hc, hs, -, hzero, -⟩ := honasStateCreate_spec hok
  have hs₁ := hs.setHeader (f := .periodBegin) rfl now.toNat
  have hfield : ∀ (f : HeaderField) (v : ℕ), f.isConfig = false → f ≠ .periodBegin →
      f ≠ .periodEnd → ((s.setHeader .periodBegin now.toNat).setHeader .periodEnd v).header f = 0 := by
    intro f v hf hbegin hend
    rw [header_setHeader hs₁, if_neg hend, header_setHeader hs, if_neg hbegin]
    exact hzero f (by rw [hf]; exact Bool.false_ne_true)
  rw [createState, if_neg hl, hc]
  dsimp only
  rw [if_pos ⟨hfield _ _ rfl (by decide) (by decide), hfield _ _ rfl (by decide) (by decide),
    hfield _ _ rfl (by decide) (by decide), hfield _ _ rfl (by decide) (by decide),
    hfield _ _ rfl (by decide) (by decide)⟩]
  exact ⟨_, rfl⟩

/-- Small states, for periods of an hour. -/
def hourlyConfig : GatherConfig := { smallParams with periodLength := 3600 }

/-- No subnets, no dry run. -/
def noOptions : Options := ⟨false, noSubnets, false⟩

/-- The clock passes the end of the first period, and goes back. -/
theorem rotations_hourly : ∃ s s' ctx, createState hourlyConfig 5 = some s ∧
    collectorRun (fun _ => zeroDigest) parseQueryForA (fun _ _ _ => false) (fun _ _ => 0)
      (.start noOptions s) [.recheck 4000 hourlyConfig noOptions.subnets,
        .recheck 10 hourlyConfig noOptions.subnets] =
      some (ctx, [⟨s, s.fileName, hourlyConfig, s'⟩]) ∧
    s.header .periodEnd ≤ s'.header .periodBegin ∧ s.fileName.isSome = true := by
  have hcreate : ∀ now, ∃ s, createState hourlyConfig now = some s :=
    exists_createState smallParams_ok (by decide)
  obtain ⟨s, hc⟩ := hcreate 5
  obtain ⟨s', hc'⟩ := hcreate 4000
  have hclock : ClockReading 5 ∧ ClockReading 4000 ∧ ClockReading 10 := by
    unfold ClockReading
    decide
  obtain ⟨h5, h4000, h10⟩ := hclock
  obtain ⟨-, -, hperiod, hend⟩ := createState_spec h5 hc
  obtain ⟨-, -, hperiod', hend'⟩ := createState_spec h4000 hc'
  have hdue : s.header .periodEnd ≤ (4000 : BitVec 64).toNat := by
    refine hperiod.end_le.trans ?_
    decide
  have hnotDue : ¬s'.header .periodEnd ≤ (10 : BitVec 64).toNat := by
    have := hperiod'.begin_lt
    rw [show (4000 : BitVec 64).toNat = 4000 from rfl] at this
    rw [show (10 : BitVec 64).toNat = 10 from rfl]
    omega
  have hfirst : recheckHandler 4000 hourlyConfig noOptions.subnets (.start noOptions s) =
      some (.start noOptions s', some ⟨s, s.fileName, hourlyConfig, s'⟩) :=
    recheckHandler_of_due hend h4000 hdue hc'
  have hsecond : recheckHandler 10 hourlyConfig noOptions.subnets (.start noOptions s') =
      some (.start noOptions s', none) := recheckHandler_of_wait hend' h10 hnotDue
  have hrun : collectorRun (fun _ => zeroDigest) parseQueryForA (fun _ _ _ => false) (fun _ _ => 0)
      (.start noOptions s) [.recheck 4000 hourlyConfig noOptions.subnets,
        .recheck 10 hourlyConfig noOptions.subnets] =
      some (.start noOptions s', [⟨s, s.fileName, hourlyConfig, s'⟩]) := by
    rw [collectorRun, List.foldlM_cons, collectorStep, hfirst]
    simp only [Option.map_some, Option.bind_eq_bind, Option.bind_some, List.foldlM_cons,
      collectorStep, hsecond]
    rfl
  obtain ⟨-, -, hrotations⟩ := rotations_disjoint h5 hc
    (by
      intro e he
      rcases List.mem_cons.1 he with rfl | he
      · exact h4000
      · obtain rfl := List.mem_singleton.1 he
        exact h10) hrun
  obtain ⟨hafter, -, hname⟩ := hrotations _ (List.mem_singleton_self _)
  refine ⟨s, s', _, hc, hrun, hafter, hname (hdue.trans_lt ?_)⟩
  decide

end

end Honas
