/-
Options that take a value.

* `argp_parse_gives_values` — when every option of an accepted command line has its value;
* `argp_spellings_agree` — the spellings of an option with its value.
-/
import Cldm.ArgpParse

namespace Cldm

open Prog PrefixTree Reader

variable {P : Type} {T : ArgpTable} {str : P → List UInt8}

/-! ### Values -/

/-- The option and the value that a word gives to it. -/
def ArgpUse.given : ArgpUse → Option (ArgpHandle × List UInt8)
  | positional => none
  | option given => given
  | argument handle value => some (handle, value)

/-- What is stored stays when it is stored again. -/
theorem ArgpHandle.store_store (handle : ArgpHandle) (value : List UInt8) (settings : ArgpSettings) :
    handle.store value (handle.store value settings) = handle.store value settings := by
  cases handle with
  | setCapture =>
    simp only [store]
    generalize List.find? _ argpValidCaptures = found
    rcases found with _ | ⟨_, _⟩ <;> rfl
  | _ => rfl

/-- The value is not empty, its handler accepts it, and it is stored in the settings. -/
structure ArgpGiven (handle : ArgpHandle) (value : List UInt8) (settings : ArgpSettings) : Prop where
  ne_nil : value ≠ []
  accepted : handle.accepts value = true
  stored : handle.store value settings = settings

theorem ArgpGiven.of_apply {handle : ArgpHandle} {value : List UInt8} (hvalue : value ≠ [])
    (h : handle.accepts value = true) (line : ArgpLine) :
    ArgpGiven handle value (line.apply handle value).settings :=
  ⟨hvalue, h, handle.store_store value line.settings⟩

theorem readCluster_given {line line' : ArgpLine} {cluster value : List UInt8} {use : ArgpUse}
    {handle : ArgpHandle} (h : T.readCluster line cluster = some (use, line'))
    (huse : use.given = some (handle, value)) : ArgpGiven handle value line'.settings := by
  induction cluster generalizing line with
  | nil =>
    obtain ⟨rfl, -⟩ := Prod.mk.inj (Option.some.inj h)
    exact absurd huse (by simp [ArgpUse.given])
  | cons c rest ih =>
    rw [ArgpTable.readCluster] at h
    rcases hrow : T.shortRow c with _ | p
    · rw [hrow] at h
      exact ih h
    · simp only [hrow] at h
      split_ifs at h with harg hrest haccepts
      · exact ih h
      · obtain ⟨rfl, -⟩ := Prod.mk.inj (Option.some.inj h)
        exact absurd huse (by simp [ArgpUse.given])
      · obtain ⟨rfl, rfl⟩ := Prod.mk.inj (Option.some.inj h)
        obtain ⟨rfl, rfl⟩ := Prod.mk.inj (Option.some.inj huse)
        exact .of_apply hrest haccepts line

theorem readLong_given {line line' : ArgpLine} {sw value : List UInt8} {use : ArgpUse}
    {handle : ArgpHandle} (h : T.readLong line sw = some (use, line'))
    (huse : use.given = some (handle, value)) : ArgpGiven handle value line'.settings := by
  rw [ArgpTable.readLong] at h
  rcases hrow : T.longRow sw with _ | ⟨p, rest⟩
  · rw [hrow] at h
    exact absurd h (by simp)
  · simp only [hrow] at h
    split_ifs at h with harg hvalue
    · obtain ⟨rfl, -⟩ := Prod.mk.inj (Option.some.inj h)
      exact absurd huse (by simp [ArgpUse.given])
    · obtain ⟨rfl, rfl⟩ := Prod.mk.inj (Option.some.inj h)
      obtain ⟨rfl, rfl⟩ := Prod.mk.inj (Option.some.inj huse)
      refine .of_apply ?_ hvalue.2.2 line
      intro hnil
      exact hvalue.2.1 (by rw [hnil]; rfl)

/-- The next word is the value of an option that waits. -/
theorem readWord_awaiting {line line' : ArgpLine} {word : List UInt8} {use : ArgpUse}
    {handle : ArgpHandle} (hawait : line.awaiting = some handle)
    (h : T.readWord line word = some (use, line')) : use = .argument handle word := by
  simp only [ArgpTable.readWord, hawait, ArgpTable.readValue] at h
  split_ifs at h
  · exact (Prod.mk.inj (Option.some.inj h)).1.symm
  · exact (Prod.mk.inj (Option.some.inj h)).1.symm

theorem readWord_given {line line' : ArgpLine} {word value : List UInt8} {use : ArgpUse}
    {handle : ArgpHandle} (h : T.readWord line word = some (use, line'))
    (huse : use.given = some (handle, value)) (hne : line.awaiting = none ∨ word ≠ []) :
    ArgpGiven handle value line'.settings := by
  rw [ArgpTable.readWord] at h
  rcases hawait : line.awaiting with _ | handle'
  · simp only [hawait] at h
    split_ifs at h
    · obtain ⟨rfl, -⟩ := Prod.mk.inj (Option.some.inj h)
      exact absurd huse (by simp [ArgpUse.given])
    · exact readLong_given h huse
    · exact readCluster_given h huse
  · have hword : word ≠ [] := hne.resolve_left (by simp [hawait])
    simp only [hawait, ArgpTable.readValue, if_neg hword] at h
    split_ifs at h with haccepts
    obtain ⟨rfl, rfl⟩ := Prod.mk.inj (Option.some.inj h)
    obtain ⟨rfl, rfl⟩ := Prod.mk.inj (Option.some.inj huse)
    exact .of_apply hword haccepts line

/-- Every option among the words that takes a value has one: in its own word, or in the word
behind it. -/
def ArgpTable.ValuesGiven (T : ArgpTable) (words : List (List UInt8)) : Prop :=
  ∀ pre word post uses line use line', words = pre ++ word :: post →
    T.read pre = some (uses, line) → T.readWord line word = some (use, line') →
    (∀ handle value, use.given = some (handle, value) → ArgpGiven handle value line'.settings) ∧
    ∀ handle, line'.awaiting = some handle → ∃ word' post' line'', post = word' :: post' ∧
      T.readWord line' word' = some (.argument handle word', line'')

/-- Whatever the allocations do, a command line is accepted only if every option has its
value. -/
def ArgpTable.ParseGivesValues (T : ArgpTable) (str : P → List UInt8) (argc : ℕ) (s : ArgpState P) :
    Prop :=
  ∀ malloc raw s', Returns (argpParse malloc str T.params raw argc) s true s' →
    T.ValuesGiven ((argvWords s.argv argc).map str)

/-- An empty word stands where an option waits for its value, and the words behind it can
be read to their end. -/
def ArgpTable.EmptyValue (T : ArgpTable) (words : List (List UInt8)) : Prop :=
  ∃ pre post uses line handle uses' line', words = pre ++ [] :: post ∧
    T.read pre = some (uses, line) ∧ line.awaiting = some handle ∧
    run T.readWord { line with awaiting := none } post = some (uses', line') ∧
    line'.awaiting = none

/-- The run over the words behind a first part. -/
theorem read_split {pre post : List (List UInt8)} {us us' : List ArgpUse} {line line' : ArgpLine}
    (h : T.read (pre ++ post) = some (us, line)) (hpre : T.read pre = some (us', line')) :
    ∃ us'', run T.readWord line' post = some (us'', line) := by
  rw [ArgpTable.read, run_append, show run T.readWord argpLineStart pre = some (us', line') from hpre,
    Option.bind_some, Option.map_eq_some_iff] at h
  obtain ⟨⟨us'', line''⟩, hrun, heq⟩ := h
  obtain ⟨-, rfl⟩ := Prod.mk.inj heq
  exact ⟨us'', hrun⟩

theorem valuesGiven_of_read {words : List (List UInt8)} {us : List ArgpUse} {lineEnd : ArgpLine}
    (h : T.read words = some (us, lineEnd)) (hend : lineEnd.awaiting = none)
    (hno : ¬ T.EmptyValue words) : T.ValuesGiven words := by
  rintro pre word post uses line use line' rfl hpre hword
  obtain ⟨us', hrun⟩ := read_split h hpre
  obtain ⟨use', us'', line'', -, hword', hpost⟩ := run_cons_eq_some.mp hrun
  obtain ⟨rfl, rfl⟩ := Prod.mk.inj (Option.some.inj (hword.symm.trans hword'))
  constructor
  · intro handle value huse
    refine readWord_given hword huse ?_
    rcases hawait : line.awaiting with _ | handle'
    · exact .inl rfl
    · refine .inr ?_
      rintro rfl
      have hline : line' = { line with awaiting := none } := by
        simp only [ArgpTable.readWord, hawait, ArgpTable.readValue, if_true] at hword
        exact (Prod.mk.inj (Option.some.inj hword)).2.symm
      rw [hline] at hpost
      exact hno ⟨pre, post, uses, line, handle', us'', lineEnd, rfl, hpre, hawait, hpost, hend⟩
  · intro handle hawait
    rcases post with _ | ⟨word', post'⟩
    · obtain ⟨-, rfl⟩ := Prod.mk.inj (Option.some.inj hpost)
      rw [hend] at hawait
      exact absurd hawait (by simp)
    · obtain ⟨use', us₃, line₃, -, hnext, -⟩ := run_cons_eq_some.mp hpost
      rw [readWord_awaiting hawait hnext] at hnext
      exact ⟨word', post', line₃, rfl, hnext⟩

/-- A command line with an empty value is accepted. -/
theorem not_parseGivesValues {argc : ℕ} (hmax : argc ≤ argpMaxParams) {s : ArgpState P}
    (h : T.EmptyValue ((argvWords s.argv argc).map str)) : ¬ T.ParseGivesValues str argc s := by
  intro hvalues
  obtain ⟨pre, post, uses, line, handle, uses', line', hsplit, hpre, hawait, hpost, hend⟩ := h
  have hword : T.readWord line [] = some (.argument handle [], { line with awaiting := none }) := by
    simp only [ArgpTable.readWord, hawait, ArgpTable.readValue, if_true]
  have hread : ∃ us, T.read ((argvWords s.argv argc).map str) = some (us, line') := by
    refine ⟨uses ++ .argument handle [] :: uses', ?_⟩
    rw [hsplit, ArgpTable.read, run_append,
      show run T.readWord argpLineStart pre = some (uses, line) from hpre, Option.bind_some,
      run_cons hword, hpost]
    rfl
  obtain ⟨us, hread⟩ := hread
  have hargc : 1 ≤ argc := by
    have hlen := congrArg List.length hsplit
    rw [List.length_map, argvWords, List.length_map, List.length_range, List.length_append,
      List.length_cons] at hlen
    omega
  obtain ⟨s', hret⟩ := argpParse_of_read hargc hmax rawDfa hread hend
  have hgiven := (hvalues allocs rawDfa s' hret pre [] post uses line _ _ hsplit hpre hword).1
  exact (hgiven handle [] rfl).ne_nil rfl

/-- Accepted options have their values, if and only if no empty word is taken for one. -/
theorem argp_parse_gives_values (T : ArgpTable) (str : P → List UInt8) (argc : ℕ)
    (s : ArgpState P) : T.ParseGivesValues str argc s ↔
      argpMaxParams < argc ∨ ¬ T.EmptyValue ((argvWords s.argv argc).map str) := by
  constructor
  · intro h
    by_contra hor
    rw [not_or, not_not] at hor
    exact not_parseGivesValues (Nat.le_of_not_lt hor.1) hor.2 h
  · intro hor malloc raw s' hret
    rcases Nat.eq_zero_or_pos argc with rfl | hargc
    · intro pre word post uses line use line' hsplit
      exact absurd hsplit (by simp [argvWords])
    · obtain ⟨uses, line, hacc⟩ := argpParse_accepted hargc hret
      have hno := hor.resolve_left (Nat.not_lt.mpr hacc.argc_le)
      exact valuesGiven_of_read hacc.read hacc.awaiting hno

/-- `-c` with an empty word behind it is accepted. -/
theorem argp_parse_accepts_empty :
    ¬ argpTable.ParseGivesValues id 3 (argpState [ascii "cldm", ascii "-c", []]) := by
  have hpre : argpTable.read [ascii "-c"] =
      some ([.option none], { argpLineStart with awaiting := some .setCapture }) := by decide
  exact not_parseGivesValues (by decide) ⟨[ascii "-c"], [], _, _, .setCapture, [], _, rfl, hpre, rfl,
    rfl, rfl⟩

/-! ### Spellings -/

/-- The spellings of an option with its value. -/
def argpSpellings (o : UInt8) (l value : List UInt8) : List (List (List UInt8)) :=
  [[dash :: o :: value], [[dash, o], value], [l ++ equals :: value]]

/-- What the words of an option come to. -/
def argpOutcome (line : ArgpLine) (handle : ArgpHandle) (value : List UInt8) :
    Option (List (List UInt8) × ArgpLine) :=
  if handle.accepts value then some ([], line.apply handle value) else none

theorem readCluster_value {p : ArgpParam} (hp : p ∈ T.params) (harg : p.argument = true) {o : UInt8}
    (ho : p.short = charInt o) (line : ArgpLine) (value : List UInt8) :
    T.readCluster line (o :: value) =
      if value = [] then some (.option none, { line with awaiting := some p.handle })
      else if p.handle.accepts value then
        some (.option (some (p.handle, value)), line.apply p.handle value)
      else none := by
  rw [ArgpTable.readCluster, ArgpTable.shortRow_eq_some.mpr ⟨hp, ho⟩]
  exact if_neg (by simp [harg])

theorem readLong_value {p : ArgpParam} (hp : p ∈ T.params) (harg : p.argument = true)
    {l : List UInt8} (hl : p.long = some l) (line : ArgpLine) {value : List UInt8}
    (hvalue : value.headD 0 ≠ 0) : T.readLong line (l ++ equals :: value) =
      if p.handle.accepts value then
        some (.option (some (p.handle, value)), line.apply p.handle value)
      else none := by
  have hfollows : Follows (nodes T.longs) (l ++ equals :: value) l := by
    refine follows_of_stuck closed_nodes (ArgpTable.mem_nodes hp hl) ?_
    rintro c r heq (hnil | ⟨l', hl', hpre⟩)
    · exact absurd hnil (by simp)
    · -- no switch has `=` in it
      obtain ⟨rfl, -⟩ := List.cons.inj heq
      obtain ⟨q, hq, hq'⟩ := ArgpTable.mem_longs.mp hl'
      refine T.equals_notMem q hq l' hq' (hpre.subset ?_)
      exact List.mem_append_right _ (List.mem_singleton_self _)
  rw [ArgpTable.readLong, ArgpTable.longRow_eq_some.mpr ⟨hp, l, hl, rfl, hfollows⟩]
  simp only [harg, Bool.true_eq_false, if_false, List.head?_cons, List.tail_cons, true_and, ne_eq,
    hvalue, not_false_eq_true]

/-- A word that is read as an option. -/
theorem readWord_dash {line : ArgpLine} (hawait : line.awaiting = none)
    (honly : line.onlyPositional = false) (word : List UInt8) : T.readWord line (dash :: word) =
      if word.head? = some dash then T.readLong line (dash :: word) else T.readCluster line word := by
  have hno : ¬ (line.onlyPositional = true ∨ (dash :: word).head? ≠ some dash) := by simp [honly]
  rw [ArgpTable.readWord, hawait]
  show (if _ then _ else if (dash :: word)[1]? = some dash then _ else _) = _
  rw [if_neg hno, List.getElem?_cons_succ, ← List.head?_eq_getElem?]
  rfl

/-- In option position, every spelling comes to the same. -/
theorem run_spelling {p : ArgpParam} (hp : p ∈ T.params) (harg : p.argument = true) {o : UInt8}
    (ho : p.short = charInt o) {l : List UInt8} (hl : p.long = some l) {value : List UInt8}
    (hvalue : value.headD 0 ≠ 0) {line : ArgpLine} (hawait : line.awaiting = none)
    (honly : line.onlyPositional = false) {us : List (List UInt8)}
    (hus : us ∈ argpSpellings o l value) :
    (run T.readWord line us).map (fun x => (selected ArgpUse.isPositional x.1 us, x.2)) =
      argpOutcome line p.handle value := by
  have hnil : value ≠ [] := by
    rintro rfl
    exact hvalue rfl
  have hdash : ¬ o = dash := by
    rintro rfl
    exact T.short_ne_dash p hp ho
  have hshort : ∀ rest, T.readWord line (dash :: o :: rest) = T.readCluster line (o :: rest) := by
    intro rest
    rw [readWord_dash hawait honly]
    exact if_neg (by simpa using hdash)
  rw [argpSpellings, List.mem_cons, List.mem_cons, List.mem_singleton] at hus
  rcases hus with rfl | rfl | rfl
  · -- `-oVALUE`
    rw [run, hshort, readCluster_value hp harg ho, if_neg hnil, argpOutcome]
    split_ifs
    · rfl
    · rfl
  · -- `-o VALUE`
    rw [run, hshort, readCluster_value hp harg ho, if_pos rfl, Option.bind_some, run]
    simp only [ArgpTable.readWord, ArgpTable.readValue, if_neg hnil, argpOutcome]
    split_ifs
    · simp [run, selected, ArgpUse.isPositional, ArgpLine.apply, hawait]
    · rfl
  · -- `--option=VALUE`
    have hlong : T.readWord line (l ++ equals :: value) = T.readLong line (l ++ equals :: value) := by
      obtain ⟨rest, rfl⟩ := T.long_dashes p hp l hl
      exact (readWord_dash hawait honly _).trans (if_pos rfl)
    rw [run, hlong, readLong_value hp harg hl line hvalue, argpOutcome]
    split_ifs
    · rfl
    · rfl

/-- Behind these words, an option is read as an option. -/
def ArgpTable.OptionPosition (T : ArgpTable) (pre : List (List UInt8)) : Prop :=
  ∀ uses line, T.read pre = some (uses, line) → line.awaiting = none ∧ line.onlyPositional = false

/-- The positional parameters that the arguments point at. -/
def ArgpState.positionals (str : P → List UInt8) (s : ArgpState P) : List (List UInt8) :=
  (List.range s.ctx.args.nposparams).map fun i => str (s.argv (s.ctx.args.posparams + i))

/-- Two parses both fail, or both succeed with the same settings and positional parameters. -/
def ParseAgrees (str : P → List UInt8) (r : Bool) (s : ArgpState P) (r' : Bool) (s' : ArgpState P) :
    Prop :=
  r' = r ∧ (r = true → s'.ctx.args.toArgpSettings = s.ctx.args.toArgpSettings ∧
    s'.positionals str = s.positionals str)

/-- The positional parameters are the positional words. -/
theorem ArgpAccepted.positionals {argc : ℕ} {s s' : ArgpState P} {uses : List ArgpUse}
    {line : ArgpLine} (h : ArgpAccepted T str argc s s' uses line) : s'.positionals str =
      selected ArgpUse.isPositional uses ((argvWords s.argv argc).map str) := by
  rw [ArgpState.positionals, h.nposparams, h.posparams, selected_map]
  have hwords := h.words
  set used := selected (fun use => !use.isPositional) uses (argvWords s.argv argc)
  set positional := selected ArgpUse.isPositional uses (argvWords s.argv argc)
  refine List.ext_getElem? fun j => ?_
  rw [List.getElem?_map, List.getElem?_map]
  rcases Nat.lt_or_ge j positional.length with hj | hj
  · have hget : (argvWords s'.argv argc)[used.length + j]? = positional[j]? := by
      rw [hwords, List.getElem?_append_right (by omega), Nat.add_sub_cancel_left]
    have hlt : used.length + j < argc - 1 := by
      have hlen := congrArg List.length hwords
      rw [argvWords, List.length_map, List.length_range, List.length_append] at hlen
      omega
    rw [argvWords, List.getElem?_map, List.getElem?_range hlt] at hget
    rw [List.getElem?_range hj, ← hget]
    show some (str (s'.argv (used.length + 1 + j))) = some (str (s'.argv (used.length + j + 1)))
    rw [Nat.add_right_comm]
  · rw [List.getElem?_eq_none (by simpa using hj), List.getElem?_eq_none hj]
    rfl

/-- What a parse comes to: the settings and the positional parameters, if it succeeds. -/
def ArgpState.result (str : P → List UInt8) (r : Bool) (s : ArgpState P) :
    Option (List (List UInt8) × ArgpSettings) :=
  if r then some (s.positionals str, s.ctx.args.toArgpSettings) else none

theorem ParseAgrees.of_result {r r' : Bool} {s s' : ArgpState P}
    (h : s'.result str r' = s.result str r) : ParseAgrees str r s r' s' := by
  cases r with
  | false =>
    cases r' with
    | false => exact ⟨rfl, fun h => absurd h (by simp)⟩
    | true => exact absurd h (by simp [ArgpState.result])
  | true =>
    cases r' with
    | false => exact absurd h (by simp [ArgpState.result])
    | true =>
      obtain ⟨hpos, hset⟩ := Prod.mk.inj (Option.some.inj h)
      exact ⟨rfl, fun _ => ⟨hset, hpos⟩⟩

/-- With memory, what a parse comes to is what its words come to. -/
theorem argpParse_result (T : ArgpTable) (str : P → List UInt8) (raw : Dfa) {argc : ℕ}
    (hargc : 1 ≤ argc) (hmax : argc ≤ argpMaxParams) {s : ArgpState P}
    {words : List (List UInt8)} (hs : (argvWords s.argv argc).map str = words) :
    Total (argpParse allocs str T.params raw argc) (fun r t => t.result str r =
      ((T.read words).map fun x => (selected ArgpUse.isPositional x.1 words, x.2)).bind fun x =>
        if x.2.awaiting = none then some (x.1, x.2.settings) else none) s := by
  refine (argpParse_total T str raw hargc hmax s).mono ?_
  intro r t hspec
  rw [hs] at hspec
  rcases hread : T.read words with _ | ⟨uses, line⟩
  · simp only [hread] at hspec
    rw [hspec]
    rfl
  · simp only [hread] at hspec
    split_ifs at hspec with hawait
    · obtain ⟨rfl, hacc⟩ := hspec
      show some _ = if line.awaiting = none then _ else _
      rw [if_pos hawait, hacc.positionals, hacc.settings, hs]
    · rw [hspec]
      exact (if_neg hawait).symm

/-- In option position, it does not matter how an option with its value is spelled. -/
theorem argp_spellings_agree (T : ArgpTable) (str : P → List UInt8) (raw raw' : Dfa)
    {p : ArgpParam} (hp : p ∈ T.params) (harg : p.argument = true) {o : UInt8}
    (ho : p.short = charInt o) {l : List UInt8} (hl : p.long = some l) {value : List UInt8}
    (hvalue : value ≠ []) (hnul : 0 ∉ value) {pre post : List (List UInt8)}
    (hpre : T.OptionPosition pre) {us us' : List (List UInt8)} (hus : us ∈ argpSpellings o l value)
    (hus' : us' ∈ argpSpellings o l value) {argc argc' : ℕ} (hmax : argc ≤ argpMaxParams)
    (hmax' : argc' ≤ argpMaxParams) {s s' : ArgpState P}
    (hs : (argvWords s.argv argc).map str = pre ++ us ++ post)
    (hs' : (argvWords s'.argv argc').map str = pre ++ us' ++ post) :
    Total (argpParse allocs str T.params raw argc) (fun r t =>
      Total (argpParse allocs str T.params raw' argc') (fun r' t' => ParseAgrees str r t r' t') s')
      s := by
  have hhead : value.headD 0 ≠ 0 := by
    rcases value with _ | ⟨v, value⟩
    · exact absurd rfl hvalue
    · rintro rfl
      exact hnul List.mem_cons_self
  have hcount : ∀ {n : ℕ} {t : ArgpState P} {vs : List (List UInt8)}, vs ∈ argpSpellings o l value →
      (argvWords t.argv n).map str = pre ++ vs ++ post → 1 ≤ n := by
    intro n t vs hvs ht
    have hlen := congrArg List.length ht
    rw [List.length_map, argvWords, List.length_map, List.length_range] at hlen
    have hvs' : 0 < vs.length := by
      rw [argpSpellings, List.mem_cons, List.mem_cons, List.mem_singleton] at hvs
      rcases hvs with rfl | rfl | rfl <;> simp
    simp only [List.length_append] at hlen
    omega
  have hsame : Same T.readWord ArgpUse.isPositional argpLineStart (pre ++ us ++ post)
      (pre ++ us' ++ post) := by
    refine Same.line pre post fun uses line hread => ?_
    obtain ⟨hawait, honly⟩ := hpre uses line hread
    have hrun := run_spelling hp harg ho hl hhead hawait honly hus
    exact hrun.trans (run_spelling hp harg ho hl hhead hawait honly hus').symm
  refine (argpParse_result T str raw (hcount hus hs) hmax hs).mono fun r t hresult => ?_
  refine (argpParse_result T str raw' (hcount hus' hs') hmax' hs').mono fun r' t' hresult' => ?_
  have heq : t'.result str r' = t.result str r := by
    rw [Same] at hsame
    rw [hresult, hresult', ArgpTable.read, ArgpTable.read, hsame]
  exact .of_result heq

/-- `-c none`, before `-v`, and `-cnone`. -/
theorem argp_spellings_agree_run :
    Total (argpParse allocs id argpTable.params rawDfa 4) (fun r t =>
      Total (argpParse allocs id argpTable.params rawDfa 3) (fun r' t' => ParseAgrees id r t r' t')
        (argpState [ascii "cldm", ascii "-cnone", ascii "-v"]))
      (argpState [ascii "cldm", ascii "-c", ascii "none", ascii "-v"]) := by
  have hmem : (⟨shortOf 'c', some (ascii "--capture"), true, .setCapture⟩ : ArgpParam) ∈
      argpTable.params := by simp [argpTable, argpParams]
  have hpre : argpTable.OptionPosition [] := by
    intro uses line h
    obtain ⟨-, rfl⟩ := Prod.mk.inj (Option.some.inj h)
    exact ⟨rfl, rfl⟩
  have hus : [ascii "-c", ascii "none"] ∈ argpSpellings 99 (ascii "--capture") (ascii "none") := by
    decide
  have hus' : [ascii "-cnone"] ∈ argpSpellings 99 (ascii "--capture") (ascii "none") := by decide
  have hnone : (0 : UInt8) ∉ ascii "none" := by decide
  have hwords : (argvWords (argpState [ascii "cldm", ascii "-c", ascii "none", ascii "-v"]).argv 4).map
      id = [] ++ [ascii "-c", ascii "none"] ++ [ascii "-v"] := by decide
  have hwords' : (argvWords (argpState [ascii "cldm", ascii "-cnone", ascii "-v"]).argv 3).map id =
      [] ++ [ascii "-cnone"] ++ [ascii "-v"] := by decide
  exact argp_spellings_agree argpTable id rawDfa rawDfa hmem rfl rfl rfl (by decide) hnone hpre hus
    hus' (by decide) (by decide) hwords hwords'

end Cldm
