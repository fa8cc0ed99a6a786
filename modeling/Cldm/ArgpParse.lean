/-
Parsing a command line.

* `argpTurn_spec`, `argpLoop_spec` — the main loop reads the words in order;
* `argpParse_total`, `argpParse_accepted` — what `cldm_argp_parse` returns, and what it
  leaves behind;
* `argp_parse_partitions` — the order of the words behind it.
-/
import Cldm.ArgpSwitch
import Cldm.ArgpPartition

namespace Cldm

open Prog PrefixTree Reader

variable {P : Type} {T : ArgpTable} {str : P → List UInt8} {dfa : Dfa} {i : ℕ}

/-- The word is a positional parameter. -/
def ArgpUse.isPositional : ArgpUse → Bool
  | positional => true
  | _ => false

/-! ### The main loop -/

theorem argpParamtype_eq (arg : List UInt8) : argpParamtype arg =
    if arg.head? ≠ some dash then 0 else if arg[1]? = some dash then 2 else 1 := by
  rcases arg with _ | ⟨a, _ | ⟨b, arg⟩⟩
  · rfl
  · by_cases ha : a = dash
    · subst ha
      rfl
    · simp [argpParamtype, ha]
  · by_cases ha : a = dash <;> by_cases hb : b = dash <;> simp [argpParamtype, ha, hb]

theorem readCluster_isPositional {line line' : ArgpLine} {cluster : List UInt8} {use : ArgpUse}
    (h : T.readCluster line cluster = some (use, line')) : use.isPositional = false := by
  induction cluster generalizing line with
  | nil =>
    obtain ⟨rfl, -⟩ := Prod.mk.inj (Option.some.inj h)
    rfl
  | cons c rest ih =>
    rw [ArgpTable.readCluster] at h
    rcases hrow : T.shortRow c with _ | p
    · rw [hrow] at h
      exact ih h
    · simp only [hrow] at h
      split_ifs at h
      · exact ih h
      · obtain ⟨rfl, -⟩ := Prod.mk.inj (Option.some.inj h)
        rfl
      · obtain ⟨rfl, -⟩ := Prod.mk.inj (Option.some.inj h)
        rfl

theorem readLong_isPositional {line line' : ArgpLine} {sw : List UInt8} {use : ArgpUse}
    (h : T.readLong line sw = some (use, line')) : use.isPositional = false := by
  rw [ArgpTable.readLong] at h
  rcases hrow : T.longRow sw with _ | ⟨p, rest⟩
  · rw [hrow] at h
    exact absurd h (by simp)
  · simp only [hrow] at h
    split_ifs at h
    · obtain ⟨rfl, -⟩ := Prod.mk.inj (Option.some.inj h)
      rfl
    · obtain ⟨rfl, -⟩ := Prod.mk.inj (Option.some.inj h)
      rfl

/-- What a turn leaves behind that read the word `i`. -/
def TurnRead (s : ArgpState P) (i : ℕ) (read : Option (ArgpUse × ArgpLine)) (r : Bool)
    (s' : ArgpState P) : Prop :=
  match read with
  | some (use, line') => r = true ∧ s'.ctx.Means line' ∧ s'.argv = s.argv ∧
      ∀ j, s'.posflag j = (s.posflag j || decide (j = i - 1) && use.isPositional)
  | none => r = false

/-- A word that is not positional sets no flag. -/
theorem TurnRead.of_answers {s : ArgpState P} {read : Option (ArgpUse × ArgpLine)} {r : Bool}
    {ctx : ArgpCtx} (h : ArgpAnswers (r, ctx) read)
    (huse : ∀ use line, read = some (use, line) → use.isPositional = false) :
    TurnRead s i read r { s with ctx } := by
  rcases read with _ | ⟨use, line⟩
  · exact h
  · refine ⟨h.1, h.2, rfl, fun j => ?_⟩
    rw [huse use line rfl, Bool.and_false, Bool.or_false]
    rfl

/-- One turn reads one word. -/
theorem argpTurn_spec (h : Holds dfa (argpSwitches T.params)) {s : ArgpState P} {line : ArgpLine}
    (hmeans : s.ctx.Means line) (hi : i - 1 < argpMaxParams) :
    Total (fun n => argpTurn str T.params dfa n i)
      (TurnRead s i (T.readWord line (str (s.argv i)))) s := by
  obtain ⟨rfl, hpending⟩ := hmeans
  refine .wp_bind ((wp_get ..).mpr ?_)
  rw [ArgpTable.readWord]
  generalize str (s.argv i) = word
  by_cases hp : s.ctx.pendingArg = true
  · -- the value of the option before
    obtain ⟨handle, hassign, htakes⟩ := hpending hp
    have hawait : s.ctx.line.awaiting = some handle := by
      rw [ArgpCtx.line, if_pos hp, hassign]
    have hnot : ∀ ctx : ArgpCtx, ({ ctx with pendingArg := false } : ArgpCtx).Means
        { ctx.line with awaiting := none } := fun ctx => ⟨rfl, fun h => absurd h (by simp)⟩
    simp only [hp, if_true, hassign, hawait, ArgpTable.readValue]
    split_ifs with hvalue haccepts
    · rw [hvalue, ArgpHandle.call_await htakes]
      refine .const ?_
      simp only [wp_bind, wp_set, wp_pure]
      refine TurnRead.of_answers ⟨rfl, hnot (s.ctx.await handle)⟩ ?_
      rintro use line heq
      obtain ⟨rfl, -⟩ := Prod.mk.inj (Option.some.inj heq)
      rfl
    · rw [ArgpHandle.call_accepted (fun _ => hvalue) haccepts]
      refine .const ?_
      simp only [wp_bind, wp_set, wp_pure]
      refine TurnRead.of_answers ⟨rfl, hnot (s.ctx.apply handle word)⟩ ?_
      rintro use line heq
      obtain ⟨rfl, -⟩ := Prod.mk.inj (Option.some.inj heq)
      rfl
    · rw [ArgpHandle.call_rejected hvalue (by simpa using haccepts)]
      refine .const ?_
      simp only [wp_bind, wp_set, wp_pure]
      exact rfl
  · have hawait : s.ctx.line.awaiting = none := if_neg hp
    have hctx : s.ctx.pendingArg = false := by simpa using hp
    simp only [hctx, Bool.false_eq_true, if_false, hawait, argpParamtype_eq]
    by_cases hpos : s.ctx.line.onlyPositional = true ∨ word.head? ≠ some dash
    · have hzero : (if s.ctx.treatAsPosparam = true then 0 else 1) *
          (if word.head? ≠ some dash then 0 else if word[1]? = some dash then 2 else 1) = 0 := by
        rcases hpos with hpos | hpos
        · rw [if_pos (show s.ctx.treatAsPosparam = true from hpos), Nat.zero_mul]
        · rw [if_pos hpos, Nat.mul_zero]
      obtain ⟨s', hset, hctx', hargv, hposflag⟩ := setPosflag_eq hi s
      simp only [hzero, if_pos hpos]
      refine .const ?_
      rw [wp_bind, wp_of_some hset, wp_pure]
      refine ⟨rfl, ⟨by rw [hctx'], fun h => absurd h (by simp [hctx', hctx])⟩, hargv, fun j => ?_⟩
      rw [hposflag]
      simp [ArgpUse.isPositional]
    · rw [if_neg hpos]
      rw [not_or, not_not] at hpos
      obtain ⟨honly, hhead⟩ := hpos
      have htreat : ¬ s.ctx.treatAsPosparam = true := honly
      simp only [htreat, Bool.false_eq_true, if_false, hhead, ne_eq, not_true_eq_false, Nat.one_mul]
      by_cases hlong : word[1]? = some dash
      · obtain ⟨r, ctx', ⟨k, hk⟩, hanswers⟩ := argpParseLongSwitch_answers h hctx word
        simp only [hlong, if_true]
        refine ⟨r, { s with ctx := ctx' }, ⟨k, fun n hn => ?_⟩,
          TurnRead.of_answers hanswers fun _ _ => readLong_isPositional⟩
        simp only [hk n hn]
        rfl
      · have hanswers := argpParseShortSwitch_answers (T := T) hctx word
        simp only [hlong, if_false]
        refine .const ?_
        simp only [wp_bind, wp_set, wp_pure]
        exact TurnRead.of_answers hanswers fun _ _ => readCluster_isPositional

/-- Whether the use `j` is that of a positional parameter. -/
def positionalAt (uses : List ArgpUse) (j : ℕ) : Bool := uses[j]?.any ArgpUse.isPositional

/-- The main loop reads the words in order, and sets the flags of positional parameters. -/
theorem argpLoop_spec (str : P → List UInt8) (h : Holds dfa (argpSwitches T.params)) {s : ArgpState P} {line : ArgpLine}
    (hmeans : s.ctx.Means line) (k i : ℕ) (hmax : i + k ≤ argpMaxParams) :
    Total (fun n => argpLoop str T.params dfa n (List.range' (i + 1) k)) (fun r s' =>
      match run T.readWord line ((List.range' (i + 1) k).map fun j => str (s.argv j)) with
      | some (uses, line') => r = true ∧ s'.ctx.Means line' ∧ s'.argv = s.argv ∧
          ∀ j, s'.posflag j = (s.posflag j || decide (i ≤ j) && positionalAt uses (j - i))
      | none => r = false) s := by
  induction k generalizing i s line with
  | zero =>
    refine .const ((wp_pure ..).mpr ⟨rfl, hmeans, rfl, fun j => ?_⟩)
    simp [positionalAt]
  | succ k ih =>
    rw [List.range'_succ, List.map_cons]
    refine .bind ((argpTurn_spec h hmeans (i := i + 1) (by omega)).mono ?_)
    intro r s' hread
    rcases hword : T.readWord line (str (s.argv (i + 1))) with _ | ⟨use, line'⟩
    · rw [hword] at hread
      obtain rfl : r = false := hread
      rw [run_cons_none hword]
      exact .const ((wp_pure ..).mpr rfl)
    · rw [hword] at hread
      obtain ⟨rfl, hmeans', hargv, hposflag⟩ := hread
      rw [run_cons hword]
      have hrest := ih (s := s') hmeans' (i + 1) (by omega)
      rw [hargv] at hrest
      refine hrest.mono ?_
      intro r s'' hloop
      rcases hrun : run T.readWord line'
          ((List.range' (i + 1 + 1) k).map fun j => str (s.argv j)) with _ | ⟨uses, line''⟩
      · rw [hrun] at hloop
        exact hloop
      · rw [hrun] at hloop
        obtain ⟨hr, hmeans'', hargv', hposflag'⟩ := hloop
        refine ⟨hr, hmeans'', hargv', fun j => ?_⟩
        rw [hposflag', hposflag, Bool.or_assoc]
        congr 1
        rcases Nat.lt_trichotomy j i with hlt | rfl | hgt
        · simp [show ¬ j = i by omega, show ¬ i + 1 ≤ j by omega, show ¬ i ≤ j by omega]
        · simp [positionalAt]
        · obtain ⟨d, rfl⟩ : ∃ d, j = i + 1 + d := ⟨j - (i + 1), by omega⟩
          have h₁ : i + 1 + d - (i + 1) = d := by omega
          have h₂ : i + 1 + d - i = d + 1 := by omega
          rw [h₁, h₂, positionalAt, positionalAt]
          simp [show ¬ i + 1 + d = i by omega, show i ≤ i + 1 + d by omega]

/-! ### The whole command line -/

/-- The line before its first word. -/
def argpLineStart : ArgpLine := (argpCtx 0).line

theorem argpCtx_means (argc : ℕ) : (argpCtx argc).Means argpLineStart :=
  ⟨rfl, fun h => absurd h (by simp [argpCtx])⟩

/-- The words of a command line, and what they are used as. -/
def ArgpTable.read (T : ArgpTable) (words : List (List UInt8)) : Option (List ArgpUse × ArgpLine) :=
  run T.readWord argpLineStart words

/-- The state after a command line was accepted: its words are sorted, and the arguments
are what was read. -/
structure ArgpAccepted (T : ArgpTable) (str : P → List UInt8) (argc : ℕ) (s s' : ArgpState P)
    (uses : List ArgpUse) (line : ArgpLine) : Prop where
  argc_le : argc ≤ argpMaxParams
  read : T.read ((argvWords s.argv argc).map str) = some (uses, line)
  awaiting : line.awaiting = none
  settings : s'.ctx.args.toArgpSettings = line.settings
  words : argvWords s'.argv argc =
    selected (fun use => !use.isPositional) uses (argvWords s.argv argc) ++
      selected ArgpUse.isPositional uses (argvWords s.argv argc)
  others : ∀ j, j = 0 ∨ argc ≤ j → s'.argv j = s.argv j
  posparams : s'.ctx.args.posparams =
    (selected (fun use => !use.isPositional) uses (argvWords s.argv argc)).length + 1
  nposparams : s'.ctx.args.nposparams =
    (selected ArgpUse.isPositional uses (argvWords s.argv argc)).length

theorem argvWords_eq (argv : ℕ → P) (argc : ℕ) :
    (argvWords argv argc).map str = (List.range' 1 (argc - 1)).map fun j => str (argv j) := by
  rw [argvWords, List.map_map, List.range'_eq_map_range, List.map_map]
  refine List.map_congr_left fun j _ => ?_
  rw [Function.comp_apply, Function.comp_apply, Nat.add_comm]

/-- With enough fuel and memory, `cldm_argp_parse` accepts a command line that can be read
to its end, with no option left waiting. -/
theorem argpParse_total (T : ArgpTable) (str : P → List UInt8) (raw : Dfa) {argc : ℕ}
    (hargc : 1 ≤ argc) (hmax : argc ≤ argpMaxParams) (s : ArgpState P) :
    Total (argpParse allocs str T.params raw argc) (fun r s' =>
      match T.read ((argvWords s.argv argc).map str) with
      | some (uses, line) => if line.awaiting = none then
          r = true ∧ ArgpAccepted T str argc s s' uses line else r = false
      | none => r = false) s := by
  obtain ⟨dfa, k, hk⟩ := T.exists_build raw
  have hholds := ArgpTable.holds_of_build ⟨k, hk⟩
  set s₀ : ArgpState P := { s with ctx := argpCtx argc, posflags := fun _ => 0 } with hs₀
  have hzero : ∀ j, s₀.posflag j = false := fun j => Nat.zero_testBit _
  have hloop := argpLoop_spec str hholds (s := s₀) (argpCtx_means argc) (argc - 1) 0
    (by omega)
  rw [Nat.zero_add, ← argvWords_eq] at hloop
  have htail : Total (fun n => argpLoop str T.params dfa n (List.range' 1 (argc - 1)) >>=
      fun r => if r then (do if (← get).ctx.pendingArg then return false else argpPartition allocs argc)
        else return false) (fun r s' =>
      match T.read ((argvWords s.argv argc).map str) with
      | some (uses, line) => if line.awaiting = none then
          r = true ∧ ArgpAccepted T str argc s s' uses line else r = false
      | none => r = false) s₀ := by
    refine .bind (hloop.mono ?_)
    intro r s' hread
    rcases hrun : T.read ((argvWords s.argv argc).map str) with _ | ⟨uses, line⟩
    · rw [show run T.readWord argpLineStart ((argvWords s₀.argv argc).map str) = none from hrun] at hread
      obtain rfl : r = false := hread
      exact .const ((wp_pure ..).mpr rfl)
    · rw [show run T.readWord argpLineStart ((argvWords s₀.argv argc).map str) =
        some (uses, line) from hrun] at hread
      obtain ⟨rfl, hmeans, hargv, hposflag⟩ := hread
      refine .const ?_
      rw [if_pos rfl, wp_bind, wp_get]
      obtain ⟨rfl, hpending⟩ := hmeans
      by_cases hp : s'.ctx.pendingArg = true
      · obtain ⟨handle, hassign, -⟩ := hpending hp
        have hawait : s'.ctx.line.awaiting = some handle := by
          rw [ArgpCtx.line, if_pos hp, hassign]
        simp only [hp, if_true, wp_pure, hawait, reduceCtorEq, if_false]
      · have hawait : s'.ctx.line.awaiting = none := if_neg hp
        have hlen : (uses.map ArgpUse.isPositional).length = (argvWords s.argv argc).length := by
          have hrunlen := length_of_run hrun
          rw [List.length_map] at hrunlen ⊢
          exact hrunlen
        have hcount : (argvWords s.argv argc).length = argc - 1 := by
          rw [argvWords, List.length_map, List.length_range]
        have hkinds : ∀ i, i < argc - 1 →
            (uses.map ArgpUse.isPositional)[i]? = some (s'.posflag i) := by
          intro i hi
          have hi' : i < uses.length := by
            rw [List.length_map] at hlen
            omega
          rw [hposflag, hzero, List.getElem?_map, positionalAt, Nat.sub_zero,
            List.getElem?_eq_getElem hi']
          simp
        have hwords : argvWords s'.argv argc = argvWords s.argv argc := by rw [hargv]
        have hpart := argpPartition_spec hargc hmax hwords hlen hkinds
        simp only [hp, Bool.false_eq_true, if_false, hawait, if_true]
        refine wp_mono hpart ?_
        rintro r t ⟨hr, hpart⟩
        rw [selected_map_left, selected_map_left] at hpart
        refine ⟨hr, ?_⟩
        constructor
        case argc_le => exact hmax
        case read => exact hrun
        case awaiting => exact hawait
        case settings => exact hpart.settings
        case words => exact hpart.words
        case others =>
          intro j hj
          rw [hpart.others j hj, hargv]
        case posparams => exact hpart.posparams
        case nposparams => exact hpart.nposparams
  obtain ⟨r, s', ⟨j, hj⟩, hQ⟩ := htail
  refine ⟨r, s', ⟨max k j, fun n hn => ?_⟩, hQ⟩
  refine bind_get (bind_some rfl ?_)
  rw [if_neg (Nat.not_lt.mpr hmax), hk n (by omega)]
  exact hj n (by omega)

/-- Where a command line is accepted, no allocation failed. -/
theorem leOn_argpParse (malloc : ℕ → Bool) (params : List ArgpParam) (raw : Dfa) (argc fuel : ℕ) :
    LeOn (· = true) (argpParse malloc str params raw argc fuel)
      (argpParse allocs str params raw argc fuel) := by
  refine .bind_right _ fun s => .bind_right _ fun _ => ?_
  by_cases hmax : argpMaxParams < argc
  · simp only [if_pos hmax]
    exact .refl _ _
  · simp only [if_neg hmax]
    rcases hbuild : dfaBuild malloc (argpSwitches params) fuel raw with _ | ⟨_ | _, dfa⟩
    · exact fun s b s' h => absurd (show none = some (b, s') from h) (by simp)
    · exact fun s b s' h hb => absurd hb (not_true_of_return_false s b s' h)
    · rw [leOn_dfaBuild malloc _ fuel raw true dfa hbuild rfl]
      refine .bind_right _ fun r => ?_
      cases r with
      | false => exact .refl _ _
      | true =>
        refine .bind_right _ fun s' => ?_
        cases hp : s'.ctx.pendingArg with
        | true => exact .refl _ _
        | false =>
          intro s b s' h hb
          subst hb
          simp only [Bool.false_eq_true, if_false, argpPartition] at h ⊢
          split_ifs at h with hmalloc
          · exact h
          · exact absurd (Prod.mk.inj (Option.some.inj h)).1 (by simp)

/-- A command line that `cldm_argp_parse` accepts was read to its end. -/
theorem argpParse_accepted {malloc : ℕ → Bool} {raw : Dfa} {argc : ℕ} (hargc : 1 ≤ argc)
    {s s' : ArgpState P} (h : Returns (argpParse malloc str T.params raw argc) s true s') :
    ∃ uses line, ArgpAccepted T str argc s s' uses line := by
  obtain ⟨k, hk⟩ := h
  have hallocs : Returns (argpParse allocs str T.params raw argc) s true s' :=
    ⟨k, fun n hn => leOn_argpParse malloc _ raw argc n s true s' (hk n hn) rfl⟩
  have hmax : argc ≤ argpMaxParams := by
    by_contra hmax
    have hfalse : argpParse malloc str T.params raw argc k s =
        some (false, { s with ctx := argpCtx argc, posflags := fun _ => 0 }) := by
      refine bind_get (bind_some rfl ?_)
      rw [if_pos (Nat.lt_of_not_le hmax)]
      rfl
    rw [hk k (Nat.le_refl k)] at hfalse
    exact absurd (Prod.mk.inj (Option.some.inj hfalse)).1 (by simp)
  have hspec := (argpParse_total T str raw hargc hmax s).of_returns hallocs
  rcases hread : T.read ((argvWords s.argv argc).map str) with _ | ⟨uses, line⟩
  · rw [hread] at hspec
    exact absurd hspec (by simp)
  · simp only [hread] at hspec
    split_ifs at hspec with hawait
    · exact ⟨uses, line, hspec.2⟩

/-- With memory, a command line that can be read to its end is accepted. -/
theorem argpParse_of_read {uses : List ArgpUse} {line : ArgpLine} {argc : ℕ} (hargc : 1 ≤ argc)
    (hmax : argc ≤ argpMaxParams) (raw : Dfa) {s : ArgpState P}
    (hread : T.read ((argvWords s.argv argc).map str) = some (uses, line))
    (hawait : line.awaiting = none) :
    ∃ s', Returns (argpParse allocs str T.params raw argc) s true s' := by
  obtain ⟨r, s', hret, hspec⟩ := argpParse_total T str raw hargc hmax s
  simp only [hread, if_pos hawait] at hspec
  obtain ⟨rfl, -⟩ := hspec
  exact ⟨s', hret⟩

/-- From the state `s`, the words were sorted: the options and their values first, and the
positional parameters last, each in their order. -/
def ArgpSorted (T : ArgpTable) (str : P → List UInt8) (argc : ℕ) (s s' : ArgpState P) : Prop :=
  ∃ uses line used positional,
    T.read ((argvWords s.argv argc).map str) = some (uses, line) ∧
    used = selected (fun use => !use.isPositional) uses (argvWords s.argv argc) ∧
    positional = selected ArgpUse.isPositional uses (argvWords s.argv argc) ∧
    argvWords s'.argv argc = used ++ positional ∧
    (argvWords s'.argv argc).Perm (argvWords s.argv argc) ∧
    s'.ctx.args.posparams = used.length + 1 ∧ s'.ctx.args.nposparams = positional.length ∧
    s'.argv 0 = s.argv 0 ∧ s'.argv argc = s.argv argc

/-- A command line that is accepted is sorted. -/
theorem argp_parse_partitions (T : ArgpTable) (str : P → List UInt8) {malloc : ℕ → Bool} {raw : Dfa}
    {argc : ℕ} (hargc : 1 ≤ argc) {s s' : ArgpState P}
    (h : Returns (argpParse malloc str T.params raw argc) s true s') :
    ArgpSorted T str argc s s' := by
  obtain ⟨uses, line, hacc⟩ := argpParse_accepted hargc h
  have hlen := length_of_run hacc.read
  rw [List.length_map] at hlen
  refine ⟨uses, line, _, _, hacc.read, rfl, rfl, hacc.words, ?_, hacc.posparams, hacc.nposparams,
    hacc.others 0 (.inl rfl), hacc.others argc (.inr (Nat.le_refl argc))⟩
  rw [hacc.words]
  exact selected_perm _ hlen

/-- A command line of words, before it is parsed. -/
def argpState (words : List (List UInt8)) : ArgpState (List UInt8) :=
  ⟨argpCtx 0, fun _ => 0, fun i => words.getD i []⟩

/-- Two positional parameters between options. -/
def mixedWords : List (List UInt8) :=
  [ascii "cldm", ascii "a", ascii "-c", ascii "none", ascii "b", ascii "-v"]

theorem argp_parse_partitions_run : ∃ s',
    Returns (argpParse allocs id argpTable.params rawDfa 6) (argpState mixedWords) true s' ∧
    ArgpSorted argpTable id 6 (argpState mixedWords) s' ∧
    argvWords s'.argv 6 = [ascii "-c", ascii "none", ascii "-v", ascii "a", ascii "b"] := by
  have hread : argpTable.read ((argvWords (argpState mixedWords).argv 6).map id) =
      some ([.positional, .option none, .argument .setCapture (ascii "none"), .positional,
        .option none], (argpLineStart.apply .setCapture (ascii "none")).apply .setVerbose []) := by
    decide
  obtain ⟨s', hret⟩ := argpParse_of_read (by decide : 1 ≤ 6) (by decide) rawDfa hread (by decide)
  have hsorted := argp_parse_partitions argpTable id (by decide) hret
  refine ⟨s', hret, hsorted, ?_⟩
  obtain ⟨uses, line, used, positional, hread', rfl, rfl, hwords, -⟩ := hsorted
  rw [hread] at hread'
  obtain ⟨rfl, rfl⟩ := Prod.mk.inj (Option.some.inj hread')
  rw [hwords]
  decide

end Cldm
