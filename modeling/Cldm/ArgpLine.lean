/-
What a command line means.

A line of words is read from left to right.  A word is a positional parameter, an
option, or the value of the option before it; an option changes the settings, or waits
for its value.

* `ArgpTable` — a table of options;
* `ArgpTable.longRow` — the row of a long switch (`ArgpTable.longRow_eq_some`);
* `ArgpTable.readWord` — a word, read with the settings before it;
* `ArgpHandle.call_accepted`, `call_rejected`, `call_await` — what the handlers do;
* `argpTable` — the table of the source.
-/
import Cldm.Argp
import Cldm.Reader

namespace Cldm

open Prog PrefixTree

/-! ### Options -/

/-- The handlers of options that take a value. -/
def ArgpHandle.takesArgument : ArgpHandle → Bool
  | setCapture | setRedirect | setJobs => true
  | _ => false

/-- The values of an option. -/
def ArgpHandle.accepts : ArgpHandle → List UInt8 → Bool
  | setCapture, value => (argpValidCaptures.find? (·.1 = value)).isSome
  | setJobs, value => (strtoul value).2 = [] ∧ (strtoul value).1 ≠ 0
  | _, _ => true

/-- The settings after an option with its value. -/
def ArgpHandle.store : ArgpHandle → List UInt8 → ArgpSettings → ArgpSettings
  | setVerbose, _, settings => { settings with verbose := true }
  | setVersion, _, settings => { settings with version := true }
  | setHelp, _, settings => { settings with help := true }
  | setFailFast, _, settings => { settings with failFast := true }
  | setCapture, value, settings =>
    match argpValidCaptures.find? (·.1 = value) with
    | some (_, capture) => { settings with capture }
    | none => settings
  | setCaptureNone, _, settings => { settings with capture := .captureNone }
  | setRedirect, value, settings => { settings with redirect := some value }
  | setJobs, value, settings => { settings with jobs := min (strtoul value).1 maxJobs }
  | setPosidx, _, settings => settings

/-- A table of options.  Rows with a value have one of the handlers for values, no option
has two rows, `-` is no option, and a switch starts with `--` and has no `=`. -/
structure ArgpTable where
  params : List ArgpParam
  short_ne_zero : ∀ p ∈ params, p.short ≠ 0
  nodup_short : (params.map ArgpParam.short).Nodup
  nodup_long : ((argpSwitches params).map Prod.fst).Nodup
  short_ne_dash : ∀ p ∈ params, p.short ≠ charInt dash
  long_dashes : ∀ p ∈ params, ∀ l ∈ p.long, [dash, dash] <+: l
  equals_notMem : ∀ p ∈ params, ∀ l ∈ p.long, equals ∉ l
  argument_eq : ∀ p ∈ params, p.argument = p.handle.takesArgument
  small : 1 + (((argpSwitches params).map Prod.fst).map fun l => l.length + 1).sum ≤ 2 ^ 31

namespace ArgpTable

variable (T : ArgpTable) {p : ArgpParam} {l rest sw : List UInt8} {c : UInt8}

/-- The long switches. -/
def longs : List (List UInt8) := (argpSwitches T.params).map Prod.fst

/-- The row of a short option. -/
def shortRow (c : UInt8) : Option ArgpParam := T.params.find? (·.short = charInt c)

/-- No switch goes on from `l` with the next character of `rest`. -/
def stops (l rest : List UInt8) : Bool :=
  match rest with
  | [] => true
  | c :: _ => T.longs.all fun l' => ! (l ++ [c]).isPrefixOf l'

/-- The row and the text behind its switch, if the word `sw` goes no further than that. -/
def rowAt (sw : List UInt8) (p : ArgpParam) : Option (ArgpParam × List UInt8) :=
  match p.long with
  | some l =>
    if l.isPrefixOf sw && T.stops l (sw.drop l.length) then some (p, sw.drop l.length) else none
  | none => none

/-- The row of a long switch, and the text behind the switch. -/
def longRow (sw : List UInt8) : Option (ArgpParam × List UInt8) := T.params.findSome? (T.rowAt sw)

variable {T}

theorem mem_argpSwitches {s : ℤ} :
    (l, s) ∈ argpSwitches T.params ↔ ∃ p ∈ T.params, p.long = some l ∧ p.short = s := by
  rw [argpSwitches, List.mem_filterMap]
  refine exists_congr fun p => and_congr_right fun _ => ?_
  rw [Option.map_eq_some_iff]
  constructor
  · rintro ⟨l', hl, heq⟩
    obtain ⟨rfl, hs⟩ := Prod.mk.inj heq
    exact ⟨hl, hs⟩
  · rintro ⟨hl, hs⟩
    exact ⟨l, hl, by rw [hs]⟩

theorem mem_longs : l ∈ T.longs ↔ ∃ p ∈ T.params, p.long = some l := by
  rw [longs, List.mem_map]
  constructor
  · rintro ⟨⟨l', s⟩, hmem, rfl⟩
    obtain ⟨p, hp, hl, -⟩ := mem_argpSwitches.mp hmem
    exact ⟨p, hp, hl⟩
  · rintro ⟨p, hp, hl⟩
    exact ⟨(l, p.short), mem_argpSwitches.mpr ⟨p, hp, hl, rfl⟩, rfl⟩

theorem mem_nodes (hp : p ∈ T.params) (hl : p.long = some l) : l ∈ nodes T.longs :=
  .inr ⟨l, mem_longs.mpr ⟨p, hp, hl⟩, List.prefix_rfl⟩

theorem stops_iff : T.stops l rest = true ↔ ∀ c r, rest = c :: r → l ++ [c] ∉ nodes T.longs := by
  rcases rest with _ | ⟨c, r⟩
  · simp [stops]
  · simp only [stops, List.all_eq_true, Bool.not_eq_true', List.cons.injEq]
    constructor
    · rintro h c r ⟨rfl, rfl⟩ (hnil | ⟨l', hl', hpre⟩)
      · exact absurd hnil (by simp)
      · have hno := h l' hl'
        rw [List.isPrefixOf_iff_prefix.mpr hpre] at hno
        exact absurd hno (by simp)
    · intro h l' hl'
      by_contra hne
      rw [Bool.not_eq_false, List.isPrefixOf_iff_prefix] at hne
      exact h c r ⟨rfl, rfl⟩ (.inr ⟨l', hl', hne⟩)

theorem eq_of_short (hp : p ∈ T.params) {q : ArgpParam} (hq : q ∈ T.params)
    (h : p.short = q.short) : p = q :=
  List.inj_on_of_nodup_map T.nodup_short hp hq h

theorem eq_of_long (hp : p ∈ T.params) {q : ArgpParam} (hq : q ∈ T.params) (hl : p.long = some l)
    (hl' : q.long = some l) : p = q := by
  have hpmem := mem_argpSwitches.mpr ⟨p, hp, hl, rfl⟩
  have hqmem := mem_argpSwitches.mpr ⟨q, hq, hl', rfl⟩
  have heq := List.inj_on_of_nodup_map T.nodup_long hpmem hqmem rfl
  exact eq_of_short hp hq (Prod.mk.inj heq).2

theorem shortRow_eq_some : T.shortRow c = some p ↔ p ∈ T.params ∧ p.short = charInt c := by
  constructor
  · intro h
    exact ⟨List.mem_of_find?_eq_some h, by simpa using List.find?_some h⟩
  · rintro ⟨hp, hc⟩
    rcases hrow : T.shortRow c with _ | q
    · have hno := List.find?_eq_none.mp hrow p hp
      exact absurd hc (by simpa using hno)
    · have hq : q.short = charInt c := by simpa using List.find?_some hrow
      rw [eq_of_short hp (List.mem_of_find?_eq_some hrow) (hc.trans hq.symm)]

theorem shortRow_eq_none : T.shortRow c = none ↔ ∀ p ∈ T.params, p.short ≠ charInt c := by
  rw [shortRow, List.find?_eq_none]
  simp

theorem rowAt_eq_some {q : ArgpParam} (hq : q ∈ T.params) : T.rowAt sw q = some (p, rest) ↔
    q = p ∧ ∃ l, p.long = some l ∧ sw = l ++ rest ∧ Follows (nodes T.longs) sw l := by
  rw [rowAt]
  rcases hl : q.long with _ | l
  · refine iff_of_false (by simp) ?_
    rintro ⟨rfl, l, hl', -⟩
    rw [hl] at hl'
    exact absurd hl' (by simp)
  · simp only [Option.ite_none_right_eq_some, Option.some.injEq, Prod.mk.injEq, Bool.and_eq_true,
      List.isPrefixOf_iff_prefix, stops_iff]
    constructor
    · rintro ⟨⟨⟨r, rfl⟩, hstop⟩, rfl, rfl⟩
      rw [List.drop_left] at hstop ⊢
      exact ⟨rfl, l, hl, rfl, follows_of_stuck closed_nodes (mem_nodes hq hl) hstop⟩
    · rintro ⟨rfl, l', hl', rfl, hfollows⟩
      obtain rfl := Option.some.inj (hl.symm.trans hl')
      have hstop := (follows_append_iff closed_nodes (mem_nodes hq hl)).mp hfollows
      rw [List.drop_left]
      exact ⟨⟨List.prefix_append l rest, hstop⟩, rfl, rfl⟩

/-- The row of a long switch is the one that the automaton stops at. -/
theorem longRow_eq_some : T.longRow sw = some (p, rest) ↔
    p ∈ T.params ∧ ∃ l, p.long = some l ∧ sw = l ++ rest ∧ Follows (nodes T.longs) sw l := by
  constructor
  · intro h
    obtain ⟨q, hq, heq⟩ := List.exists_of_findSome?_eq_some h
    obtain ⟨rfl, hl⟩ := (rowAt_eq_some hq).mp heq
    exact ⟨hq, hl⟩
  · rintro ⟨hp, l, hl, hsw, hfollows⟩
    rcases hrow : T.longRow sw with _ | ⟨q, r⟩
    · have hno := List.findSome?_eq_none_iff.mp hrow p hp
      rw [(rowAt_eq_some hp).mpr ⟨rfl, l, hl, hsw, hfollows⟩] at hno
      exact absurd hno (by simp)
    · obtain ⟨q', hq', heq⟩ := List.exists_of_findSome?_eq_some hrow
      obtain ⟨rfl, l', hl', hsw', hfollows'⟩ := (rowAt_eq_some hq').mp heq
      obtain rfl := hfollows.unique hfollows'
      obtain rfl := List.append_cancel_left (hsw.symm.trans hsw')
      rw [eq_of_long hp hq' hl hl']

theorem longRow_eq_none : T.longRow sw = none ↔
    ∀ p ∈ T.params, ∀ l, p.long = some l → ¬ Follows (nodes T.longs) sw l := by
  constructor
  · intro h p hp l hl hfollows
    obtain ⟨rest, hsw⟩ := hfollows.isPrefix
    rw [longRow_eq_some.mpr ⟨hp, l, hl, hsw.symm, hfollows⟩] at h
    exact absurd h (by simp)
  · intro h
    by_contra hne
    obtain ⟨⟨p, rest⟩, hrow⟩ := Option.ne_none_iff_exists'.mp hne
    obtain ⟨hp, l, hl, -, hfollows⟩ := longRow_eq_some.mp hrow
    exact h p hp l hl hfollows

end ArgpTable

/-! ### Reading -/

/-- What has been read: the settings, the option that waits for a value, and whether
only positional parameters follow. -/
structure ArgpLine where
  settings : ArgpSettings
  awaiting : Option ArgpHandle
  onlyPositional : Bool
  deriving DecidableEq

/-- What a word is used as, with the value that it gives to an option. -/
inductive ArgpUse
  | positional
  | option (given : Option (ArgpHandle × List UInt8))
  | argument (handle : ArgpHandle) (value : List UInt8)
  deriving DecidableEq

/-- An option takes effect. -/
def ArgpLine.apply (line : ArgpLine) (handle : ArgpHandle) (value : List UInt8) : ArgpLine :=
  { line with
    settings := handle.store value line.settings
    onlyPositional := line.onlyPositional || handle = .setPosidx }

namespace ArgpTable

variable (T : ArgpTable)

/-- The characters of short options.  The rest of the word behind an option that takes a
value is its value; a character that is no option has no meaning. -/
def readCluster : ArgpLine → List UInt8 → Option (ArgpUse × ArgpLine)
  | line, [] => some (.option none, line)
  | line, c :: rest =>
    match T.shortRow c with
    | none => readCluster line rest
    | some p =>
      if p.argument = false then
        readCluster (line.apply p.handle rest) rest
      else if rest = [] then
        some (.option none, { line with awaiting := some p.handle })
      else if p.handle.accepts rest then
        some (.option (some (p.handle, rest)), line.apply p.handle rest)
      else
        none

attribute [grind =] readCluster

/-- A long switch, with its value behind `=`.  A value does not start with a terminator. -/
def readLong (line : ArgpLine) (sw : List UInt8) : Option (ArgpUse × ArgpLine) :=
  match T.longRow sw with
  | none => none
  | some (p, rest) =>
    if p.argument = false then
      some (.option none, line.apply p.handle rest)
    else if rest.head? = some equals ∧ rest.tail.headD 0 ≠ 0 ∧ p.handle.accepts rest.tail then
      some (.option (some (p.handle, rest.tail)), line.apply p.handle rest.tail)
    else
      none

/-- The value that an option waits for.  An empty word ends the waiting. -/
def readValue (line : ArgpLine) (handle : ArgpHandle) (word : List UInt8) :
    Option (ArgpUse × ArgpLine) :=
  if word = [] then
    some (.argument handle word, { line with awaiting := none })
  else if handle.accepts word then
    some (.argument handle word, { line.apply handle word with awaiting := none })
  else
    none

/-- One word. -/
def readWord (line : ArgpLine) (word : List UInt8) : Option (ArgpUse × ArgpLine) :=
  match line.awaiting with
  | some handle => readValue line handle word
  | none =>
    if line.onlyPositional ∨ word.head? ≠ some dash then
      some (.positional, line)
    else if word[1]? = some dash then
      T.readLong line word
    else
      T.readCluster line word.tail

end ArgpTable

/-! ### Handlers -/

/-- What a context has read. -/
def ArgpCtx.line (ctx : ArgpCtx) : ArgpLine where
  settings := ctx.args.toArgpSettings
  awaiting := if ctx.pendingArg then ctx.assignPending else none
  onlyPositional := ctx.treatAsPosparam

/-- The context after an option. -/
def ArgpCtx.apply (ctx : ArgpCtx) (handle : ArgpHandle) (value : List UInt8) : ArgpCtx :=
  { ctx with
    args := { ctx.args with toArgpSettings := handle.store value ctx.args.toArgpSettings }
    treatAsPosparam := ctx.treatAsPosparam || handle = .setPosidx }

namespace ArgpHandle

variable {handle : ArgpHandle} {ctx : ArgpCtx} {value : List UInt8}

/-- A handler without a value waits for it. -/
theorem call_await (h : handle.takesArgument = true) (ctx : ArgpCtx) :
    handle.call ctx [] = (true, ctx.await handle) := by
  cases handle with
  | setCapture => rfl
  | setRedirect => rfl
  | setJobs => rfl
  | _ => exact absurd h (by decide)

theorem call_rejected (hvalue : value ≠ []) (h : handle.accepts value = false) :
    handle.call ctx value = (false, ctx) := by
  cases handle with
  | setCapture =>
    rw [accepts, Option.isSome_eq_false_iff, Option.isNone_iff_eq_none] at h
    show argpSetCapture ctx value = _
    rw [argpSetCapture, if_neg hvalue, h]
  | setJobs =>
    rw [accepts, decide_eq_false_iff_not, not_and_not_right] at h
    show argpSetJobs ctx value = _
    rw [argpSetJobs, if_neg hvalue]
    by_cases hrest : (strtoul value).2 = []
    · simp only [hrest, ne_eq, not_true_eq_false, if_false, if_pos (h hrest)]
    · simp only [if_pos hrest]
  | _ => exact absurd h (by simp [accepts])

/-- A handler that accepts its value stores it. -/
theorem call_accepted (hvalue : handle.takesArgument = true → value ≠ [])
    (h : handle.accepts value = true) : handle.call ctx value = (true, ctx.apply handle value) := by
  cases handle with
  | setCapture =>
    obtain ⟨⟨name, capture⟩, hfind⟩ := Option.isSome_iff_exists.mp h
    show argpSetCapture ctx value = _
    rw [argpSetCapture, if_neg (hvalue rfl), hfind]
    simp [ArgpCtx.apply, store, hfind]
  | setRedirect =>
    show argpSetRedirect ctx value = _
    rw [argpSetRedirect, if_neg (hvalue rfl)]
    simp [ArgpCtx.apply, store]
  | setJobs =>
    obtain ⟨hrest, hn⟩ := of_decide_eq_true h
    show argpSetJobs ctx value = _
    rw [argpSetJobs, if_neg (hvalue rfl)]
    simp only [hrest, ne_eq, not_true_eq_false, if_false, if_neg hn]
    split_ifs with hmax
    · simp [ArgpCtx.apply, store, Nat.min_eq_right hmax.le]
    · simp [ArgpCtx.apply, store, Nat.min_eq_left (Nat.le_of_not_lt hmax)]
  | setPosidx => simp [call, argpSetPosidx, ArgpCtx.apply, store]
  | _ => simp [call, ArgpCtx.apply, store, argpSetMember, argpSetVerbose, argpSetVersion,
      argpSetHelp, argpSetFailFast, argpSetCaptureNone]

/-- A handler of an option without a value accepts every text. -/
theorem accepts_of_flag (h : handle.takesArgument = false) (value : List UInt8) :
    handle.accepts value = true := by
  cases handle with
  | setCapture => exact absurd h (by decide)
  | setJobs => exact absurd h (by decide)
  | _ => rfl

end ArgpHandle

theorem ArgpCtx.line_apply (ctx : ArgpCtx) (handle : ArgpHandle) (value : List UInt8) :
    (ctx.apply handle value).line = ctx.line.apply handle value := rfl

/-! ### The table of the source -/

/-- The options of cldm. -/
def argpTable : ArgpTable where
  params := argpParams
  short_ne_zero := by decide
  nodup_short := by decide
  nodup_long := by decide
  short_ne_dash := by decide
  long_dashes := by decide
  equals_notMem := by decide
  argument_eq := by decide
  small := by decide

end Cldm
