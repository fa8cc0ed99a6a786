/-
A single word of the command line.

* `argpParseShortSwitch_answers`, `argpParseLongSwitch_answers` — the functions of the
  source read a word as the table says;
* `short_switch_rejects_unknown` — when a cluster with an unknown option is rejected;
* `long_switch_strict` — when a long switch is accepted only as it is registered.
-/
import Cldm.ArgpLine

namespace Cldm

open Prog PrefixTree

variable {T : ArgpTable} {ctx : ArgpCtx} {c : UInt8} {sw : List UInt8}

/-- What a context stands for; a context that waits knows whose value it waits for. -/
structure ArgpCtx.Means (ctx : ArgpCtx) (line : ArgpLine) : Prop where
  eq : ctx.line = line
  pending : ctx.pendingArg = true →
    ∃ handle, ctx.assignPending = some handle ∧ handle.takesArgument = true

/-- A function of the source answers as the word is read. -/
def ArgpAnswers (r : Bool × ArgpCtx) (read : Option (ArgpUse × ArgpLine)) : Prop :=
  match read with
  | some (_, line) => r.1 = true ∧ r.2.Means line
  | none => r.1 = false

/-! ### Short switches -/

/-- The search for a character in the table. -/
theorem argpShortParams_eq (c : UInt8) (optarg : List UInt8) (params : List ArgpParam) (i : ℕ)
    (ctx : ArgpCtx) : ∃ j, argpShortParams c optarg params i ctx =
      match params.find? (·.short = charInt c) with
      | some p =>
        match p.handle.call ctx optarg with
        | (false, ctx) => (.inl false, ctx)
        | (true, ctx) => if p.argument then (.inl true, ctx) else (.inr (some j), ctx)
      | none => (.inr (some j), ctx) := by
  induction params generalizing i with
  | nil => exact ⟨i, rfl⟩
  | cons p params ih =>
    by_cases hp : p.short = charInt c
    · refine ⟨i, ?_⟩
      have hfind : (p :: params).find? (·.short = charInt c) = some p :=
        List.find?_cons_of_pos (by simpa using hp)
      obtain ⟨ok, ctx', hcall⟩ : ∃ ok ctx', p.handle.call ctx optarg = (ok, ctx') := ⟨_, _, rfl⟩
      cases ok <;> simp only [argpShortParams, if_pos hp, hfind, hcall]
    · obtain ⟨j, hj⟩ := ih (i + 1)
      refine ⟨j, ?_⟩
      rw [argpShortParams, if_neg hp, List.find?_cons_of_neg (by simpa using hp)]
      exact hj

/-- A character that is no option is passed over. -/
theorem argpShortLoop_unknown (h : T.shortRow c = none) (rest : List UInt8) (ctx : ArgpCtx) :
    argpShortLoop T.params (c :: rest) ctx = argpShortLoop T.params rest ctx := by
  obtain ⟨j, hj⟩ := argpShortParams_eq c rest T.params 0 ctx
  rw [show T.params.find? (·.short = charInt c) = none from h] at hj
  rw [argpShortLoop, hj]
  exact if_neg (by simp)

/-- An option without a value takes effect, and the next character is read. -/
theorem argpShortLoop_flag {p : ArgpParam} (h : T.shortRow c = some p) (hp : p.argument = false)
    (rest : List UInt8) (ctx : ArgpCtx) : argpShortLoop T.params (c :: rest) ctx =
      argpShortLoop T.params rest (ctx.apply p.handle rest) := by
  have hflag : p.handle.takesArgument = false := by
    rw [← T.argument_eq p (ArgpTable.shortRow_eq_some.mp h).1, hp]
  have hcall : p.handle.call ctx rest = (true, ctx.apply p.handle rest) :=
    ArgpHandle.call_accepted (fun hvalue => absurd hflag (by simp [hvalue]))
      (ArgpHandle.accepts_of_flag hflag rest)
  obtain ⟨j, hj⟩ := argpShortParams_eq c rest T.params 0 ctx
  rw [show T.params.find? (·.short = charInt c) = some p from h] at hj
  simp only [hcall, hp, Bool.false_eq_true, if_false] at hj
  rw [argpShortLoop, hj]
  exact if_neg (by simp)

/-- An option with a value has the rest of the word. -/
theorem argpShortLoop_value {p : ArgpParam} (h : T.shortRow c = some p) (hp : p.argument = true)
    (rest : List UInt8) (ctx : ArgpCtx) :
    argpShortLoop T.params (c :: rest) ctx = p.handle.call ctx rest := by
  obtain ⟨j, hj⟩ := argpShortParams_eq c rest T.params 0 ctx
  rw [show T.params.find? (·.short = charInt c) = some p from h] at hj
  simp only [hp, if_true] at hj
  rw [argpShortLoop, hj]
  rcases p.handle.call ctx rest with ⟨_ | _, ctx'⟩ <;> rfl

theorem argpShortLoop_answers (hctx : ctx.pendingArg = false) (cluster : List UInt8) :
    ArgpAnswers (argpShortLoop T.params cluster ctx) (T.readCluster ctx.line cluster) := by
  induction cluster generalizing ctx with
  | nil => exact ⟨rfl, rfl, fun h => absurd h (by simp [hctx, argpShortLoop])⟩
  | cons c rest ih =>
    rw [ArgpTable.readCluster]
    rcases hrow : T.shortRow c with _ | p
    · rw [argpShortLoop_unknown hrow]
      exact ih hctx
    · have harg := T.argument_eq p (ArgpTable.shortRow_eq_some.mp hrow).1
      show ArgpAnswers _ (if p.argument = false then _ else _)
      by_cases hp : p.argument = false
      · rw [if_pos hp, argpShortLoop_flag hrow hp, ← ctx.line_apply]
        exact ih hctx
      · rw [if_neg hp, argpShortLoop_value hrow (by simpa using hp)]
        split_ifs with hrest haccepts
        · -- the word ends with the option
          have htakes := harg.symm.trans (by simpa using hp)
          rw [hrest, ArgpHandle.call_await htakes]
          exact ⟨rfl, rfl, fun _ => ⟨p.handle, rfl, htakes⟩⟩
        · rw [ArgpHandle.call_accepted (fun _ => hrest) haccepts]
          exact ⟨rfl, ctx.line_apply .., fun h => absurd h (by simp [ArgpCtx.apply, hctx])⟩
        · rw [ArgpHandle.call_rejected hrest (by simpa using haccepts)]
          exact rfl

/-- `cldm_argp_parse_short_switch` reads the options of a word. -/
theorem argpParseShortSwitch_answers (hctx : ctx.pendingArg = false) (sw : List UInt8) :
    ArgpAnswers (argpParseShortSwitch T.params ctx sw) (T.readCluster ctx.line sw.tail) :=
  argpShortLoop_answers hctx sw.tail

/-- The character is a short option that takes a value. -/
def ArgpTable.Takes (T : ArgpTable) (c : UInt8) : Prop :=
  ∃ p ∈ T.params, p.short = charInt c ∧ p.argument = true

/-- Some character of the cluster, before the first option that takes a value, is no option. -/
def ArgpTable.HasUnknown (T : ArgpTable) (cluster : List UInt8) : Prop :=
  ∃ pre c post, cluster = pre ++ c :: post ∧ (∀ a ∈ pre, ¬ T.Takes a) ∧
    ∀ p ∈ T.params, p.short ≠ charInt c

/-- The first option that takes a value rejects the text behind it. -/
def ArgpTable.ValueRejected (T : ArgpTable) (cluster : List UInt8) : Prop :=
  ∃ pre c rest, cluster = pre ++ c :: rest ∧ (∀ a ∈ pre, ¬ T.Takes a) ∧
    ∃ p ∈ T.params, p.short = charInt c ∧ p.argument = true ∧ rest ≠ [] ∧
      p.handle.accepts rest = false

/-- Behind a character that takes no value, the rest of the cluster decides. -/
theorem ArgpTable.valueRejected_cons (h : ¬ T.Takes c) {rest : List UInt8} :
    T.ValueRejected (c :: rest) ↔ T.ValueRejected rest := by
  constructor
  · rintro ⟨pre, c', rest', heq, hpre, p, hp, hshort, harg, hrej⟩
    rcases pre with _ | ⟨a, pre⟩
    · obtain ⟨rfl, rfl⟩ := List.cons.inj heq
      exact absurd ⟨p, hp, hshort, harg⟩ h
    · obtain ⟨rfl, rfl⟩ := List.cons.inj heq
      exact ⟨pre, c', rest', rfl, fun b hb => hpre b (List.mem_cons_of_mem _ hb), p, hp, hshort,
        harg, hrej⟩
  · rintro ⟨pre, c', rest', rfl, hpre, hrej⟩
    refine ⟨c :: pre, c', rest', rfl, ?_, hrej⟩
    intro a ha
    rcases List.mem_cons.mp ha with rfl | ha
    · exact h
    · exact hpre a ha

/-- A cluster is rejected where a value is rejected, and nowhere else. -/
theorem argpShortLoop_eq_false {cluster : List UInt8} :
    (argpShortLoop T.params cluster ctx).1 = false ↔ T.ValueRejected cluster := by
  induction cluster generalizing ctx with
  | nil =>
    refine iff_of_false (by simp [argpShortLoop]) ?_
    rintro ⟨pre, c, rest, heq, -⟩
    exact absurd heq (by simp)
  | cons c rest ih =>
    rcases hrow : T.shortRow c with _ | p
    · have hno : ¬ T.Takes c :=
        fun ⟨p, hp, hc, _⟩ => ArgpTable.shortRow_eq_none.mp hrow p hp hc
      rw [argpShortLoop_unknown hrow, ih, ArgpTable.valueRejected_cons hno]
    · obtain ⟨hp, hshort⟩ := ArgpTable.shortRow_eq_some.mp hrow
      cases harg : p.argument with
      | false =>
        have hno : ¬ T.Takes c := by
          rintro ⟨q, hq, hq', hqarg⟩
          obtain rfl := ArgpTable.eq_of_short hp hq (hshort.trans hq'.symm)
          rw [harg] at hqarg
          exact absurd hqarg (by simp)
        rw [argpShortLoop_flag hrow harg, ih, ArgpTable.valueRejected_cons hno]
      | true =>
        have htakes := (T.argument_eq p hp).symm.trans harg
        rw [argpShortLoop_value hrow harg]
        constructor
        · intro h
          have hrest : rest ≠ [] := by
            rintro rfl
            rw [ArgpHandle.call_await htakes] at h
            exact absurd h (by simp)
          refine ⟨[], c, rest, rfl, fun a ha => absurd ha (by simp), p, hp, hshort, harg, hrest, ?_⟩
          by_contra haccepts
          rw [ArgpHandle.call_accepted (fun _ => hrest) (by simpa using haccepts)] at h
          exact absurd h (by simp)
        · rintro ⟨pre, c', rest', heq, hpre, q, hq, hq', -, hrest, hrej⟩
          rcases pre with _ | ⟨a, pre⟩
          · obtain ⟨rfl, rfl⟩ := List.cons.inj heq
            obtain rfl := ArgpTable.eq_of_short hp hq (hshort.trans hq'.symm)
            rw [ArgpHandle.call_rejected hrest hrej]
          · obtain ⟨rfl, -⟩ := List.cons.inj heq
            exact absurd ⟨p, hp, hshort, harg⟩ (hpre c List.mem_cons_self)

/-- A cluster with an unknown option is rejected. -/
def ArgpTable.RejectsUnknown (T : ArgpTable) (ctx : ArgpCtx) (cluster : List UInt8) : Prop :=
  T.HasUnknown cluster → (argpParseShortSwitch T.params ctx (dash :: cluster)).1 = false

/-- Unknown options are accepted silently, unless the value of a later option is rejected. -/
theorem short_switch_rejects_unknown (T : ArgpTable) (ctx : ArgpCtx) (cluster : List UInt8) :
    T.RejectsUnknown ctx cluster ↔ ¬ T.HasUnknown cluster ∨ T.ValueRejected cluster := by
  have hloop : argpParseShortSwitch T.params ctx (dash :: cluster) =
      argpShortLoop T.params cluster ctx := rfl
  rw [ArgpTable.RejectsUnknown, hloop, argpShortLoop_eq_false]
  exact imp_iff_not_or

/-- `-z` is accepted. -/
theorem short_switch_accepts_unknown : ¬ argpTable.RejectsUnknown (argpCtx 2) (ascii "z") := by
  intro h
  have hunknown : argpTable.HasUnknown (ascii "z") :=
    ⟨[], 122, [], by decide, fun a ha => absurd ha (by simp), by decide⟩
  exact absurd (h hunknown) (by decide)

/-! ### Long switches -/

/-- A simulation answers with the row of a switch. -/
theorem ArgpTable.simulate {dfa : Dfa} (h : Holds dfa (argpSwitches T.params)) (sw : List UInt8) :
    Total (dfaSimulate sw) (fun r s' => s' = dfa ∧
      match T.longRow sw with
      | some (p, rest) => ∃ l, sw = l ++ rest ∧ r = ((l.length : ℤ), p.short)
      | none => r = (-1, 0)) dfa := by
  have hop : ∀ a ∈ argpSwitches T.params, a.2 ≠ 0 := by
    rintro ⟨l, s⟩ ha
    obtain ⟨p, hp, -, rfl⟩ := ArgpTable.mem_argpSwitches.mp ha
    exact T.short_ne_zero p hp
  obtain ⟨q, hfollows, htotal⟩ := h.simulate hop sw
  refine htotal.mono ?_
  rintro r s' ⟨rfl, rfl⟩
  refine ⟨rfl, ?_⟩
  rw [dfaAnswer]
  rcases hlast : lastOf (argpSwitches T.params) q with _ | short
  · have hno : T.longRow sw = none := by
      refine ArgpTable.longRow_eq_none.mpr fun p hp l hl hl' => ?_
      obtain rfl := hfollows.unique hl'
      have hmem := ArgpTable.mem_argpSwitches.mpr ⟨p, hp, hl, rfl⟩
      rw [(lastOf_eq_some T.nodup_long).mpr hmem] at hlast
      exact absurd hlast (by simp)
    rw [hno]
  · obtain ⟨p, hp, hl, rfl⟩ :=
      ArgpTable.mem_argpSwitches.mp ((lastOf_eq_some T.nodup_long).mp hlast)
    obtain ⟨rest, rfl⟩ := hfollows.isPrefix
    rw [ArgpTable.longRow_eq_some.mpr ⟨hp, q, hl, rfl, hfollows⟩]
    exact ⟨q, rfl, rfl⟩

/-- What the row of a long switch makes of the text behind the switch. -/
def ArgpTable.longResult (ctx : ArgpCtx) (p : ArgpParam) (rest : List UInt8) : Bool × ArgpCtx :=
  if p.argument = false then
    (true, ctx.apply p.handle rest)
  else if rest.head? = some equals ∧ rest.tail.headD 0 ≠ 0 ∧ p.handle.accepts rest.tail then
    (true, ctx.apply p.handle rest.tail)
  else
    (false, ctx)

theorem charAt_append (l rest : List UInt8) (i : ℕ) (hi : i ≤ rest.length) :
    charAt (l ++ rest) (l.length + i : ℕ) = some (rest.getD i 0) := by
  rw [charAt, if_pos (by rw [List.length_append]; omega), Int.toNat_natCast]
  simp [List.getD_eq_getElem?_getD, List.getElem?_append_right]

/-- The row of a switch decides. -/
theorem argpLongParam_eq {p : ArgpParam} (hp : p ∈ T.params) (l rest : List UInt8) (ctx : ArgpCtx) :
    argpLongParam (l ++ rest) l.length p ctx = some (ArgpTable.longResult ctx p rest) := by
  have hdrop : ∀ i : ℕ, (l ++ rest).drop (l.length + i : ℤ).toNat = rest.drop i := by
    intro i
    rw [show (l.length + i : ℤ).toNat = l.length + i by omega, List.drop_append]
    simp
  rw [argpLongParam, ArgpTable.longResult]
  cases harg : p.argument with
  | false =>
    have hflag := (T.argument_eq p hp).symm.trans harg
    have hdrop₀ := hdrop 0
    rw [Nat.cast_zero, add_zero, List.drop_zero] at hdrop₀
    rw [hdrop₀, ArgpHandle.call_accepted (fun h => absurd hflag (by simp [h]))
      (ArgpHandle.accepts_of_flag hflag rest)]
    rfl
  | true =>
    have htakes := (T.argument_eq p hp).symm.trans harg
    have hchar := charAt_append l rest 0 (Nat.zero_le _)
    rw [Nat.add_zero] at hchar
    simp only [if_true, Bool.true_eq_false, if_false, hchar, Option.bind_eq_bind, Option.bind_some]
    rcases rest with _ | ⟨c, value⟩
    · rfl
    · have hchar' := charAt_append l (c :: value) 1 (by simp)
      have hdrop' := hdrop 1
      rw [Nat.cast_add, Nat.cast_one] at hchar'
      rw [Nat.cast_one, List.drop_one, List.tail_cons] at hdrop'
      simp only [hchar', hdrop', Option.bind_some, List.getD_cons_zero, List.getD_cons_succ,
        List.head?_cons, List.tail_cons, Option.some.injEq]
      by_cases hc : c = equals
      · subst hc
        rw [if_neg (not_not_intro rfl)]
        rcases value with _ | ⟨v, value⟩
        · rfl
        · by_cases hv : v = 0
          · subst hv
            rfl
          · simp only [List.getD_cons_zero, List.headD_cons, hv, and_false, if_false, ne_eq,
              not_false_eq_true, true_and]
            split_ifs with haccepts
            · rw [ArgpHandle.call_accepted (fun _ => by simp) haccepts]
              rfl
            · rw [ArgpHandle.call_rejected (by simp) (by simpa using haccepts)]
              rfl
      · rw [if_pos hc, if_neg fun h => hc h.1]
        rfl

/-- The search for a switch in the table. -/
theorem argpLongParams_eq {sw : List UInt8} {len : ℤ} {params : List ArgpParam} {p : ArgpParam}
    (hp : p ∈ params) (hnodup : (params.map ArgpParam.short).Nodup) {r : Bool × ArgpCtx}
    (hparam : argpLongParam sw len p ctx = some r) (i : ℕ) :
    ∃ j, argpLongParams sw len p.short params i ctx =
      some (if r.1 then (.inr (some j), r.2) else (.inl false, r.2)) := by
  induction params generalizing i with
  | nil => exact absurd hp List.not_mem_nil
  | cons q params ih =>
    rw [List.map_cons, List.nodup_cons] at hnodup
    rcases List.mem_cons.mp hp with rfl | hp
    · refine ⟨i, ?_⟩
      rw [argpLongParams, if_pos rfl, hparam]
      rcases r with ⟨_ | _, ctx'⟩ <;> rfl
    · have hne : ¬ q.short = p.short := fun h => hnodup.1 (h ▸ List.mem_map_of_mem hp)
      obtain ⟨j, hj⟩ := ih hp hnodup.2 (i + 1)
      refine ⟨j, ?_⟩
      rw [argpLongParams, if_neg hne]
      exact hj

/-- With enough fuel, `cldm_argp_parse_long_switch` returns. -/
def ArgpTable.LongReturns (T : ArgpTable) (dfa : Dfa) (ctx : ArgpCtx) (sw : List UInt8) (r : Bool)
    (ctx' : ArgpCtx) : Prop :=
  ∃ k, ∀ n, k ≤ n → argpParseLongSwitch T.params dfa ctx sw n = some (r, ctx')

/-- The row that the automaton stops at decides. -/
theorem argpParseLongSwitch_returns {dfa : Dfa} (h : Holds dfa (argpSwitches T.params))
    (ctx : ArgpCtx) (sw : List UInt8) :
    match T.longRow sw with
    | some (p, rest) => T.LongReturns dfa ctx sw (ArgpTable.longResult ctx p rest).1
        (ArgpTable.longResult ctx p rest).2
    | none => T.LongReturns dfa ctx sw false ctx := by
  obtain ⟨⟨len, short⟩, s', ⟨k, hk⟩, rfl, hanswer⟩ := ArgpTable.simulate h sw
  rcases hrow : T.longRow sw with _ | ⟨p, rest⟩
  · rw [hrow] at hanswer
    refine ⟨k, fun n hn => ?_⟩
    rw [argpParseLongSwitch, hk n hn, hanswer]
    rfl
  · rw [hrow] at hanswer
    obtain ⟨l, rfl, heq⟩ := hanswer
    obtain ⟨rfl, rfl⟩ := Prod.mk.inj heq
    obtain ⟨hp, -⟩ := ArgpTable.longRow_eq_some.mp hrow
    obtain ⟨j, hj⟩ := argpLongParams_eq hp T.nodup_short (argpLongParam_eq hp l rest ctx) 0
    have hne : ¬ (l.length : ℤ) = -1 := by omega
    refine ⟨k, fun n hn => ?_⟩
    rw [argpParseLongSwitch, hk n hn]
    simp only [Option.bind_eq_bind, Option.bind_some, if_neg hne, hj]
    rcases ArgpTable.longResult ctx p rest with ⟨_ | _, ctx'⟩
    · rfl
    · exact if_neg (by simp)

/-- `cldm_argp_parse_long_switch` reads the option of a word. -/
theorem argpParseLongSwitch_answers {dfa : Dfa} (h : Holds dfa (argpSwitches T.params))
    (hctx : ctx.pendingArg = false) (sw : List UInt8) :
    ∃ r ctx', T.LongReturns dfa ctx sw r ctx' ∧ ArgpAnswers (r, ctx') (T.readLong ctx.line sw) := by
  have hreturns := argpParseLongSwitch_returns h ctx sw
  have hmeans : ∀ handle value, (ctx.apply handle value).Means (ctx.line.apply handle value) :=
    fun handle value => ⟨ctx.line_apply .., fun h => absurd h (by simp [ArgpCtx.apply, hctx])⟩
  rw [ArgpTable.readLong]
  rcases hrow : T.longRow sw with _ | ⟨p, rest⟩
  · rw [hrow] at hreturns
    exact ⟨false, ctx, hreturns, rfl⟩
  · rw [hrow] at hreturns
    refine ⟨_, _, hreturns, ?_⟩
    show ArgpAnswers (ArgpTable.longResult ctx p rest) (if p.argument = false then _ else _)
    rw [ArgpTable.longResult]
    split_ifs
    · exact ⟨rfl, hmeans ..⟩
    · exact ⟨rfl, hmeans ..⟩
    · exact rfl

/-- The word is a switch without a value, or a switch with `=` and a value that its
handler accepts. -/
def ArgpTable.LongSwitch (T : ArgpTable) (sw : List UInt8) : Prop :=
  (∃ p ∈ T.params, p.argument = false ∧ p.long = some sw) ∨
    ∃ p ∈ T.params, p.argument = true ∧ ∃ l value, p.long = some l ∧ value ≠ [] ∧
      p.handle.accepts value = true ∧ sw = l ++ equals :: value

/-- Only long switches are accepted, and another word sets nothing, in every automaton
that was built for the table. -/
def ArgpTable.LongStrict (T : ArgpTable) (ctx : ArgpCtx) (sw : List UInt8) : Prop :=
  ∀ malloc raw dfa, Returns (dfaBuild malloc (argpSwitches T.params)) raw true dfa →
    ∃ r ctx', T.LongReturns dfa ctx sw r ctx' ∧ (T.LongSwitch sw ∨ r = false ∧ ctx' = ctx)

/-- The word goes on behind a switch without a value, with a character that no switch has
there. -/
def ArgpTable.Extends (T : ArgpTable) (sw : List UInt8) : Prop :=
  ∃ p ∈ T.params, p.argument = false ∧ ∃ l c rest, p.long = some l ∧ sw = l ++ c :: rest ∧
    ∀ l' ∈ T.longs, ¬ l ++ [c] <+: l'

/-- An automaton that was built holds the switches. -/
theorem ArgpTable.holds_of_build {malloc : ℕ → Bool} {raw dfa : Dfa}
    (h : Returns (dfaBuild malloc (argpSwitches T.params)) raw true dfa) :
    Holds dfa (argpSwitches T.params) := by
  obtain ⟨k, hk⟩ := h
  have hallocs : Returns (dfaBuild allocs (argpSwitches T.params)) raw true dfa :=
    ⟨k, fun n hn => leOn_dfaBuild malloc _ n raw true dfa (hk n hn) rfl⟩
  exact ((dfaBuild_settles (fun _ => rfl) _ raw).of_returns hallocs).2

/-- The automaton of a table can be built. -/
theorem ArgpTable.exists_build (T : ArgpTable) (raw : Dfa) :
    ∃ dfa, Returns (dfaBuild allocs (argpSwitches T.params)) raw true dfa := by
  have hsmall := (ncard_nodes_le_sum ((argpSwitches T.params).map Prod.fst)).trans T.small
  have htotal := (dfaBuild_settles (fun _ => rfl) (argpSwitches T.params) raw).total
    (Nat.not_lt.mpr hsmall)
  obtain ⟨r, dfa, hret, rfl, -⟩ := htotal
  exact ⟨dfa, hret⟩

/-- The way of a word that goes on behind a switch ends at the switch. -/
theorem ArgpTable.follows_of_extends {p : ArgpParam} {l : List UInt8} (hp : p ∈ T.params)
    (hl : p.long = some l) (hstuck : ∀ l' ∈ T.longs, ¬ l ++ [c] <+: l') (rest : List UInt8) :
    Follows (nodes T.longs) (l ++ c :: rest) l := by
  refine follows_of_stuck closed_nodes (mem_nodes hp hl) ?_
  rintro a r heq (hnil | ⟨l', hl', hpre⟩)
  · exact absurd hnil (by simp)
  · obtain ⟨rfl, rfl⟩ := List.cons.inj heq
    exact hstuck l' hl' hpre

/-- A long switch does not go on behind a switch without a value. -/
theorem ArgpTable.LongSwitch.not_extends (h : T.LongSwitch sw) : ¬ T.Extends sw := by
  rintro ⟨p, hp, harg, l, c, rest, hl, rfl, hstuck⟩
  have hfollows := follows_of_extends hp hl hstuck rest
  rcases h with ⟨q, hq, -, hq'⟩ | ⟨q, hq, hqarg, l', value, hl', -, -, heq⟩
  · -- a switch itself is followed to its end
    have hlong := (hfollows.longest _ List.prefix_rfl (mem_nodes hq hq')).length_le
    rw [List.length_append, List.length_cons] at hlong
    omega
  · have hpre : l' <+: l := hfollows.longest l' ⟨_, heq.symm⟩ (mem_nodes hq hl')
    obtain ⟨r, rfl⟩ := hpre
    rcases r with _ | ⟨a, r⟩
    · rw [List.append_nil] at hl
      obtain rfl := eq_of_long hp hq hl hl'
      rw [harg] at hqarg
      exact absurd hqarg (by simp)
    · -- the longer switch would have `=` in it
      rw [List.append_assoc] at heq
      obtain ⟨rfl, -⟩ := List.cons.inj (List.append_cancel_left heq)
      exact T.equals_notMem p hp _ hl (by simp)

theorem ArgpTable.LongReturns.unique {dfa : Dfa} {r r' : Bool} {ctx₁ ctx₂ : ArgpCtx}
    (h : T.LongReturns dfa ctx sw r ctx₁) (h' : T.LongReturns dfa ctx sw r' ctx₂) :
    r = r' ∧ ctx₁ = ctx₂ := by
  obtain ⟨k, hk⟩ := h
  obtain ⟨k', hk'⟩ := h'
  have heq := (hk (max k k') (Nat.le_max_left ..)).symm.trans (hk' (max k k') (Nat.le_max_right ..))
  exact Prod.mk.inj (Option.some.inj heq)

/-- A word that goes on behind a switch without a value is accepted. -/
theorem ArgpTable.LongStrict.not_extends (h : T.LongStrict ctx sw) : ¬ T.Extends sw := by
  intro hextends
  obtain ⟨dfa, hbuild⟩ := T.exists_build rawDfa
  obtain ⟨r, ctx', hret, hresult⟩ := h allocs rawDfa dfa hbuild
  have hreturns := argpParseLongSwitch_returns (ArgpTable.holds_of_build hbuild) ctx sw
  obtain ⟨p, hp, harg, l, c, rest, hl, rfl, hstuck⟩ := hextends
  have hfollows := ArgpTable.follows_of_extends hp hl hstuck rest
  rw [ArgpTable.longRow_eq_some.mpr ⟨hp, l, hl, rfl, hfollows⟩] at hreturns
  obtain ⟨rfl, -⟩ := hret.unique hreturns
  rcases hresult with hswitch | ⟨hfalse, -⟩
  · exact hswitch.not_extends ⟨p, hp, harg, l, c, rest, hl, rfl, hstuck⟩
  · rw [ArgpTable.longResult, if_pos harg] at hfalse
    exact absurd hfalse (by simp)

/-- A long switch is accepted only as it is registered, if and only if it does not go on
behind a switch without a value. -/
theorem long_switch_strict (T : ArgpTable) (ctx : ArgpCtx) (sw : List UInt8) :
    T.LongStrict ctx sw ↔ ¬ T.Extends sw := by
  constructor
  · exact ArgpTable.LongStrict.not_extends
  · intro hno malloc raw dfa hbuild
    have hreturns := argpParseLongSwitch_returns (ArgpTable.holds_of_build hbuild) ctx sw
    rcases hrow : T.longRow sw with _ | ⟨p, rest⟩
    · rw [hrow] at hreturns
      exact ⟨false, ctx, hreturns, .inr ⟨rfl, rfl⟩⟩
    · rw [hrow] at hreturns
      refine ⟨_, _, hreturns, ?_⟩
      obtain ⟨hp, l, hl, rfl, hfollows⟩ := ArgpTable.longRow_eq_some.mp hrow
      rw [ArgpTable.longResult]
      split_ifs with harg hvalue
      · rcases rest with _ | ⟨c, rest⟩
        · exact .inl (.inl ⟨p, hp, harg, by rw [List.append_nil, hl]⟩)
        · have hstop := (follows_append_iff closed_nodes (ArgpTable.mem_nodes hp hl)).mp hfollows
          refine absurd ⟨p, hp, harg, l, c, rest, hl, rfl, fun l' hl' hpre => ?_⟩ hno
          exact hstop c rest rfl (.inr ⟨l', hl', hpre⟩)
      · obtain ⟨hequals, hne, haccepts⟩ := hvalue
        obtain ⟨value, rfl⟩ := List.head?_eq_some_iff.mp hequals
        rw [List.tail_cons] at hne haccepts
        have hnil : value ≠ [] := by
          rintro rfl
          exact hne rfl
        exact .inl (.inr ⟨p, hp, by simpa using harg, l, value, hl, hnil, haccepts, rfl⟩)
      · exact .inr ⟨rfl, rfl⟩

/-- `--helpx` is accepted as `--help`. -/
theorem long_switch_accepts_longer : ¬ argpTable.LongStrict (argpCtx 2) (ascii "--helpx") := by
  intro h
  have hmem : ⟨shortOf 'h', some (ascii "--help"), false, .setHelp⟩ ∈ argpTable.params := by
    simp [argpTable, argpParams]
  refine h.not_extends ⟨_, hmem, rfl, ascii "--help", 120, [], rfl, by decide, ?_⟩
  decide

end Cldm
