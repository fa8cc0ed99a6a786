/-
The command line of `cldm_argp.c`.

A word is the list of its bytes before the terminator.  The main function has the words
behind pointers, which it sorts; the functions for a single word take the word itself and
return the context with their answer.  An access outside of an array or a word is a fault.

* `argpSetVerbose` to `argpSetJobs` — the handlers;
* `argpParams` — the table of the options;
* `argpParseShortSwitch`, `argpParseLongSwitch` — one word;
* `argpParse` — the command line.
-/
import Cldm.DfaRun

namespace Cldm

open Prog

/-- The bytes of a string constant. -/
def ascii (s : String) : List UInt8 := s.toList.map fun c => UInt8.ofNat c.toNat

/-- `'-'`. -/
abbrev dash : UInt8 := 45

/-- `'='`. -/
abbrev equals : UInt8 := 61

/-- `CLDM_ARGP_MAX_PARAMS`. -/
abbrev argpMaxParams : ℕ := 128

/-- `CLDM_MAX_THREADS`, the most jobs. -/
abbrev maxJobs : ℕ := 32

/-- `cldm_argp_short_usage`. -/
abbrev argpShortUsage : ℤ := 256

/-- `cldm_argp_short_ddash`. -/
abbrev argpShortDdash : ℤ := 257

/-- `enum cldm_capture`. -/
inductive Capture
  | captureNone
  | captureStdout
  | captureStderr
  | captureAll
  deriving DecidableEq

/-- `cldm_argp_valid_captures`; the index of a name is the value of its capture. -/
def argpValidCaptures : List (List UInt8 × Capture) :=
  [(ascii "none", .captureNone), (ascii "stdout", .captureStdout), (ascii "stderr", .captureStderr),
   (ascii "all", .captureAll)]

/-- The members of `struct cldm_args` that options set. -/
structure ArgpSettings where
  redirect : Option (List UInt8)
  jobs : ℕ
  capture : Capture
  failFast : Bool
  help : Bool
  version : Bool
  verbose : Bool
  deriving DecidableEq

/-- `struct cldm_args`; `posparams` is an index into `argv`. -/
structure ArgpArgs extends ArgpSettings where
  posparams : ℕ
  nposparams : ℕ

/-- The handlers that a `cldm_argp_handle` points at. -/
inductive ArgpHandle
  | setVerbose
  | setVersion
  | setHelp
  | setFailFast
  | setCapture
  | setCaptureNone
  | setRedirect
  | setJobs
  | setPosidx
  deriving DecidableEq

/-- `struct cldm_argp_ctx`, without `index`, which nothing reads. -/
structure ArgpCtx where
  assignPending : Option ArgpHandle
  args : ArgpArgs
  treatAsPosparam : Bool
  pendingArg : Bool

/-- `struct cldm_argp_param`; `argument` tells whether there is a `p_argument`. -/
structure ArgpParam where
  short : ℤ
  long : Option (List UInt8)
  argument : Bool
  handle : ArgpHandle

/-! ### Numbers -/

/-- `isspace`, in the C locale. -/
def isSpace (c : UInt8) : Bool := c = 32 || (9 ≤ c && c ≤ 13)

/-- The value of a digit in a base. -/
def digitVal (base : ℕ) (c : UInt8) : Option ℕ :=
  let v : ℕ :=
    if 48 ≤ c ∧ c ≤ 57 then c.toNat - 48
    else if 97 ≤ c ∧ c ≤ 122 then c.toNat - 87
    else if 65 ≤ c ∧ c ≤ 90 then c.toNat - 55
    else base
  if v < base then some v else none

/-- The number that the leading digits make with the digits `acc` before them, and the rest. -/
def readDigits (base : ℕ) : ℕ → List UInt8 → ℕ × List UInt8
  | acc, [] => (acc, [])
  | acc, c :: s =>
    match digitVal base c with
    | some v => readDigits base (acc * base + v) s
    | none => (acc, c :: s)

attribute [grind =] readDigits

/-- The base of the number that `s` starts with, and its digits. -/
def numberBase (s : List UInt8) : ℕ × List UInt8 :=
  if s.head? = some 48 then
    if (s[1]? = some 120 ∨ s[1]? = some 88) ∧ (s[2]?.bind (digitVal 16)).isSome then
      (16, s.drop 2)
    else
      (8, s)
  else
    (10, s)

/-- `ULONG_MAX`. -/
abbrev ulongMax : ℕ := 2 ^ 64 - 1

/-- `strtoul(s, &end, 0)`: the number, and the string at `end`. -/
def strtoul (s : List UInt8) : ℕ × List UInt8 :=
  let t := s.dropWhile isSpace
  let negative := t.head? = some dash
  let t := if t.head? = some dash ∨ t.head? = some 43 then t.tail else t
  let (base, t) := numberBase t
  let (n, rest) := readDigits base 0 t
  if rest.length = t.length then
    -- without a digit, `end` is at the start
    (0, s)
  else if ulongMax < n then
    (ulongMax, rest)
  else if negative then
    ((2 ^ 64 - n) % 2 ^ 64, rest)
  else
    (n, rest)

/-! ### Handlers -/

/-- A handler that only sets a member.  It returns its argument, which is never a null
pointer. -/
def argpSetMember (f : ArgpArgs → ArgpArgs) (ctx : ArgpCtx) (_optarg : List UInt8) : Bool × ArgpCtx :=
  (true, { ctx with args := f ctx.args })

/-- `cldm_argp_set_verbose`. -/
def argpSetVerbose : ArgpCtx → List UInt8 → Bool × ArgpCtx :=
  argpSetMember fun args => { args with verbose := true }

/-- `cldm_argp_set_version`. -/
def argpSetVersion : ArgpCtx → List UInt8 → Bool × ArgpCtx :=
  argpSetMember fun args => { args with version := true }

/-- `cldm_argp_set_help`. -/
def argpSetHelp : ArgpCtx → List UInt8 → Bool × ArgpCtx :=
  argpSetMember fun args => { args with help := true }

/-- `cldm_argp_set_fail_fast`. -/
def argpSetFailFast : ArgpCtx → List UInt8 → Bool × ArgpCtx :=
  argpSetMember fun args => { args with failFast := true }

/-- `cldm_argp_set_capture_none`. -/
def argpSetCaptureNone : ArgpCtx → List UInt8 → Bool × ArgpCtx :=
  argpSetMember fun args => { args with capture := .captureNone }

/-- `cldm_argp_set_posidx`. -/
def argpSetPosidx (ctx : ArgpCtx) (_optarg : List UInt8) : Bool × ArgpCtx :=
  (true, { ctx with treatAsPosparam := true })

/-- What a handler does without a value: the next word is to be its value. -/
def ArgpCtx.await (ctx : ArgpCtx) (handle : ArgpHandle) : ArgpCtx :=
  { ctx with pendingArg := true, assignPending := some handle }

/-- `cldm_argp_set_capture`. -/
def argpSetCapture (ctx : ArgpCtx) (optarg : List UInt8) : Bool × ArgpCtx :=
  if optarg = [] then
    (true, ctx.await .setCapture)
  else
    match argpValidCaptures.find? (·.1 = optarg) with
    | some (_, capture) => (true, { ctx with args := { ctx.args with capture } })
    | none => (false, ctx)

/-- `cldm_argp_set_redirect`. -/
def argpSetRedirect (ctx : ArgpCtx) (optarg : List UInt8) : Bool × ArgpCtx :=
  if optarg = [] then
    (true, ctx.await .setRedirect)
  else
    (true, { ctx with args := { ctx.args with redirect := some optarg } })

/-- `cldm_argp_set_jobs`. -/
def argpSetJobs (ctx : ArgpCtx) (optarg : List UInt8) : Bool × ArgpCtx :=
  if optarg = [] then
    (true, ctx.await .setJobs)
  else
    let (n, rest) := strtoul optarg
    if rest ≠ [] then
      (false, ctx)
    else if n = 0 then
      (false, ctx)
    else if maxJobs < n then
      (true, { ctx with args := { ctx.args with jobs := maxJobs } })
    else
      (true, { ctx with args := { ctx.args with jobs := n } })

/-- Call a handler. -/
def ArgpHandle.call : ArgpHandle → ArgpCtx → List UInt8 → Bool × ArgpCtx
  | setVerbose => argpSetVerbose
  | setVersion => argpSetVersion
  | setHelp => argpSetHelp
  | setFailFast => argpSetFailFast
  | setCapture => argpSetCapture
  | setCaptureNone => argpSetCaptureNone
  | setRedirect => argpSetRedirect
  | setJobs => argpSetJobs
  | setPosidx => argpSetPosidx

/-- The short option of a character. -/
def shortOf (c : Char) : ℤ := charInt (UInt8.ofNat c.toNat)

/-- `cldm_argp_params`. -/
def argpParams : List ArgpParam :=
  [⟨shortOf 'v', some (ascii "--verbose"), false, .setVerbose⟩,
   ⟨shortOf 'V', some (ascii "--version"), false, .setVersion⟩,
   ⟨shortOf 'h', some (ascii "--help"), false, .setHelp⟩,
   ⟨argpShortUsage, some (ascii "--usage"), false, .setHelp⟩,
   ⟨shortOf 'x', some (ascii "--fail-fast"), false, .setFailFast⟩,
   ⟨shortOf 'c', some (ascii "--capture"), true, .setCapture⟩,
   ⟨shortOf 's', some (ascii "--capture-none"), false, .setCaptureNone⟩,
   ⟨shortOf 'd', some (ascii "--redirect-captures"), true, .setRedirect⟩,
   ⟨shortOf 'j', some (ascii "--jobs"), true, .setJobs⟩,
   ⟨argpShortDdash, some (ascii "--"), false, .setPosidx⟩]

/-! ### One word -/

/-- The loop over the table in `cldm_argp_parse_short_switch`, from row `i` on: what the
function returns within it, or `param` behind it.  `cldm_for_each` leaves `param` at the
row of a `break`, or one past the end. -/
def argpShortParams (c : UInt8) (optarg : List UInt8) :
    List ArgpParam → ℕ → ArgpCtx → (Bool ⊕ Option ℕ) × ArgpCtx
  | [], i, ctx => (.inr (some i), ctx)
  | param :: params, i, ctx =>
    if param.short = charInt c then
      match param.handle.call ctx optarg with
      | (false, ctx) => (.inl false, ctx)
      | (true, ctx) => if param.argument then (.inl true, ctx) else (.inr (some i), ctx)
    else
      argpShortParams c optarg params (i + 1) ctx

/-- The loop over the characters in `cldm_argp_parse_short_switch`. -/
def argpShortLoop (params : List ArgpParam) : List UInt8 → ArgpCtx → Bool × ArgpCtx
  | [], ctx => (true, ctx)
  | c :: sw, ctx =>
    match argpShortParams c sw params 0 ctx with
    | (.inl result, ctx) => (result, ctx)
    | (.inr param, ctx) => if param = none then (false, ctx) else argpShortLoop params sw ctx

attribute [grind =] argpShortParams argpShortLoop

/-- `cldm_argp_parse_short_switch`. -/
def argpParseShortSwitch (params : List ArgpParam) (ctx : ArgpCtx) (sw : List UInt8) :
    Bool × ArgpCtx :=
  argpShortLoop params sw.tail ctx

/-- `sw[i]`. -/
def charAt (sw : List UInt8) (i : ℤ) : Option UInt8 :=
  if 0 ≤ i ∧ i ≤ sw.length then some (sw.getD i.toNat 0) else none

/-- The body of the `if` in the loop over the table in `cldm_argp_parse_long_switch`: whether
it comes to the `break`. -/
def argpLongParam (sw : List UInt8) (len : ℤ) (param : ArgpParam) (ctx : ArgpCtx) :
    Option (Bool × ArgpCtx) := do
  if param.argument then
    let c ← charAt sw len
    if c ≠ equals then
      return (false, ctx)
    else
      let c' ← charAt sw (len + 1)
      if c ≠ 0 ∧ c' = 0 then
        return (false, ctx)
      else
        return param.handle.call ctx (sw.drop (len + 1).toNat)
  else
    return param.handle.call ctx (sw.drop len.toNat)

/-- The loop over the table in `cldm_argp_parse_long_switch`, from row `i` on. -/
def argpLongParams (sw : List UInt8) (len shortop : ℤ) :
    List ArgpParam → ℕ → ArgpCtx → Option ((Bool ⊕ Option ℕ) × ArgpCtx)
  | [], i, ctx => some (.inr (some i), ctx)
  | param :: params, i, ctx =>
    if param.short = shortop then do
      match ← argpLongParam sw len param ctx with
      | (false, ctx) => return (.inl false, ctx)
      | (true, ctx) => return (.inr (some i), ctx)
    else
      argpLongParams sw len shortop params (i + 1) ctx

attribute [grind =] argpLongParams

/-- `cldm_argp_parse_long_switch`. -/
def argpParseLongSwitch (params : List ArgpParam) (dfa : Dfa) (ctx : ArgpCtx) (sw : List UInt8)
    (fuel : ℕ) : Option (Bool × ArgpCtx) := do
  let ((len, shortop), _) ← dfaSimulate sw fuel dfa
  if len = -1 then
    return (false, ctx)
  else
    match ← argpLongParams sw len shortop params 0 ctx with
    | (.inl result, ctx) => return (result, ctx)
    | (.inr param, ctx) =>
      -- `cldm_rtassert(param)`
      if param = none then failure else return (true, ctx)

/-- `cldm_argp_paramtype`: 0 for a positional parameter, 1 for a short switch, and 2 for
a long switch. -/
def argpParamtype (arg : List UInt8) : ℕ :=
  (if arg.getD 0 0 = dash then 1 else 0) +
    (if arg.getD 0 0 = dash ∧ arg.getD 1 0 = dash then 1 else 0)

/-! ### The command line -/

/-- The state of `cldm_argp_parse`: the context with the arguments, `posflags`, and
`argv`. -/
structure ArgpState (P : Type) where
  ctx : ArgpCtx
  posflags : ℕ → UInt8
  argv : ℕ → P

section Definitions

variable {P : Type} (malloc : ℕ → Bool) (str : P → List UInt8) (params : List ArgpParam)

/-- `posflags[i / CHAR_BIT] |= 1 << (i % CHAR_BIT)`. -/
def setPosflag (i : ℕ) : Prog (ArgpState P) Unit := fun s =>
  let flags := UInt8.ofNat ((s.posflags (i / 8)).toNat ||| 1 <<< (i % 8))
  if i / 8 < argpMaxParams / 8 then
    some ((), { s with posflags := Function.update s.posflags (i / 8) flags })
  else none

/-- One turn of the main loop: whether it goes on. -/
def argpTurn (dfa : Dfa) (fuel i : ℕ) : Prog (ArgpState P) Bool := do
  let s ← get
  let arg := str (s.argv i)
  if s.ctx.pendingArg then
    match s.ctx.assignPending with
    | none => failure
    | some assignPending =>
      match assignPending.call s.ctx arg with
      | (false, ctx) =>
        set { s with ctx }
        return false
      | (true, ctx) =>
        set { s with ctx := { ctx with pendingArg := false } }
        return true
  else
    match (if s.ctx.treatAsPosparam then 0 else 1) * argpParamtype arg with
    | 0 =>
      setPosflag (i - 1)
      return true
    | 1 =>
      let (result, ctx) := argpParseShortSwitch params s.ctx arg
      set { s with ctx }
      return result
    | 2 =>
      match argpParseLongSwitch params dfa s.ctx arg fuel with
      | some (result, ctx) =>
        set { s with ctx }
        return result
      | none => failure
    | _ => failure

/-- The main loop, over the indices that are left. -/
def argpLoop (dfa : Dfa) (fuel : ℕ) : List ℕ → Prog (ArgpState P) Bool
  | [] => return true
  | i :: is => do
    if ← argpTurn str params dfa fuel i then
      argpLoop dfa fuel is
    else
      return false

attribute [grind =] argpLoop

/-- The buffer of `cldm_argp_partition`; an entry that was not written is `none`. -/
structure ArgpTmp (P : Type) where
  tmp : ℕ → Option P
  lidx : ℕ
  hidx : ℕ

/-- One turn of the loop of `cldm_argp_partition`. -/
def argpPartitionTurn (s : ArgpState P) (argc : ℕ) (t : ArgpTmp P) (i : ℕ) : Option (ArgpTmp P) :=
  if (s.posflags (i / 8)).toNat &&& 1 <<< (i % 8) ≠ 0 then
    if t.hidx < 2 * argc then
      some { t with tmp := Function.update t.tmp t.hidx (some (s.argv (i + 1))), hidx := t.hidx + 1 }
    else none
  else
    if t.lidx < 2 * argc then
      some { t with tmp := Function.update t.tmp t.lidx (some (s.argv (i + 1))), lidx := t.lidx + 1 }
    else none

/-- Copy `n` pointers from `tmp[src]` on to `argv[dst]` on. -/
def argpCopy (tmp : ℕ → Option P) (dst src : ℕ) : ℕ → (ℕ → P) → Option (ℕ → P)
  | 0, argv => some argv
  | n + 1, argv => do
    let argv ← argpCopy tmp dst src n argv
    let p ← tmp (src + n)
    return Function.update argv (dst + n) p

attribute [grind =] argpCopy

/-- The state with the sorted words, of which `lidx` are no positional parameters. -/
def ArgpState.sorted (s : ArgpState P) (argc lidx : ℕ) (argv : ℕ → P) : ArgpState P :=
  let posparams := lidx + 1
  let nposparams := (argc + 2 * uintMod - lidx - 1) % uintMod
  { s with ctx := { s.ctx with args := { s.ctx.args with posparams, nposparams } }, argv }

/-- `cldm_argp_partition`; a pointer has 8 bytes. -/
def argpPartition (argc : ℕ) : Prog (ArgpState P) Bool := fun s =>
  if malloc (2 * argc * 8) then do
    let t ← (List.range (argc - 1)).foldlM (argpPartitionTurn s argc) ⟨fun _ => none, 0, argc⟩
    let argv ← argpCopy t.tmp 1 0 t.lidx s.argv
    let argv ← argpCopy t.tmp (t.lidx + 1) argc (t.hidx - argc) argv
    return (true, s.sorted argc t.lidx argv)
  else
    some (false, s)

/-- The switches for the automaton. -/
def argpSwitches : List (List UInt8 × ℤ) :=
  params.filterMap fun param => param.long.map fun long => (long, param.short)

/-- The arguments before the first word. -/
def argpArgs (argc : ℕ) : ArgpArgs where
  redirect := none
  posparams := argc
  nposparams := 0
  jobs := 1
  capture := .captureAll
  failFast := false
  help := false
  version := false
  verbose := false

/-- The context before the first word. -/
def argpCtx (argc : ℕ) : ArgpCtx where
  assignPending := none
  args := argpArgs argc
  treatAsPosparam := false
  pendingArg := false

/-- `cldm_argp_parse`, with the automaton `raw` before it is initialised. -/
def argpParse (raw : Dfa) (argc fuel : ℕ) : Prog (ArgpState P) Bool := do
  let s ← get
  set { s with ctx := argpCtx argc, posflags := fun _ => 0 }
  if argpMaxParams < argc then
    return false
  else
    match dfaBuild malloc (argpSwitches params) fuel raw with
    | none => failure
    | some (false, _) => return false
    | some (true, dfa) =>
      if ← argpLoop str params dfa fuel (List.range' 1 (argc - 1)) then
        if (← get).ctx.pendingArg then
          return false
        else
          argpPartition malloc argc
      else
        return false

end Definitions

end Cldm
