/-
Capturing and restoring the standard streams.

`cldm_io_capture_standard` leaves the stream's descriptor `d` on a new open file, the
file that `d` led to behind a saved descriptor and behind the descriptor of the
replacement (`Captured`).  `cldm_io_restore_stdout` is given the replacement, so it
closes and restores the replacement's descriptor, and `d` stays where it is.

* `Standing.redirect2`, `Standing.captureStandard`, `Standing.restoreStandard` — what
  each function does to the descriptors;
* `io_capture_restore_iff` — restoring undoes capturing only where nothing is captured.
-/
import Cldm.Io

namespace Cldm

open Prog Stdio Function

/-- `d`, which led to `o`, has been redirected, and `p` saves where it led to. -/
structure Redirected (t t' : Descriptors) (d p : ℤ) (o : ℕ) : Prop where
  moved : t'.table d = some t.opened
  fresh : t.table p = none
  saved : t'.table p = some o
  others : ∀ d' o', d' ≠ d → t.table d' = some o' → t'.table d' = some o'
  opened : t'.opened = t.opened + 1

/-- The stream at `d`, which led to `o`, has been captured: its replacement writes through `r`,
and `p` saves where `d` led to. -/
structure Captured (t t' : Descriptors) (d r p : ℤ) (o : ℕ) : Prop where
  moved : ∃ f, t.opened ≤ f ∧ t'.table d = some f
  replaced : t.table r = none
  shown : t'.table r = some o
  fresh : t.table p = none
  saved : t'.table p = some o
  apart : p ≠ r
  others : ∀ d' o', d' ≠ d → t.table d' = some o' → t'.table d' = some o'
  opened : t.opened ≤ t'.opened

end Cldm

namespace Stdio.Standing

open Prog Stdio Function Cldm

variable {strerror : ℕ → List UInt8} {s : IoState} {t : Descriptors} {l : List (Option ℤ)}
  {v : IoVars} {fp o : ℕ} {d : ℤ}

theorem modifyVars (h : Standing s t l v) {f : IoVars → IoVars} {Q : Unit → IoState → Prop}
    (hQ : ∀ s', Standing s' t l (f v) → Q () s') : wp (Cldm.modifyVars f) Q s := by
  rw [Cldm.modifyVars, wp_modify]
  refine hQ _ ⟨h.fds, h.streams, ?_, h.faults⟩
  rw [h.vars]

/-- A redirection moves the stream's descriptor to a new open file and saves the old one. -/
theorem redirect2 (h : Standing s t l v) (hfp : l[fp]? = some (some d))
    (hd : t.table d = some o) {path : List UInt8} {Q : ℤ → IoState → Prop}
    (hQ : ∀ t' s' p, Redirected t t' d p o → Standing s' t' l v → Q p s') :
    wp (ioRedirect2 strerror fp path) Q s := by
  have hne : d ≠ t.lowest := Descriptors.ne_lowest hd
  rw [ioRedirect2, wp_bind]
  refine h.openAppend fun s₁ h₁ => ?_
  have hlow : t.lowest ≠ -1 := by
    have hpos : 0 ≤ t.lowest := Descriptors.lowest_nonneg
    omega
  rw [if_neg hlow, wp_bind]
  refine h₁.fflush hfp fun s₂ h₂ => ?_
  rw [wp_bind]
  refine h₂.fileno hfp ?_
  have hd₁ : t.openLowest.table d = some o := by
    rw [Descriptors.table_openLowest, update_of_ne hne, hd]
  have hne₁ : d ≠ t.openLowest.lowest := Descriptors.ne_lowest hd₁
  have hsaved : t.openLowest.lowest ≠ t.lowest := by
    refine (Descriptors.ne_lowest (f := t.opened) ?_).symm
    rw [Descriptors.table_openLowest, update_self]
  rw [wp_bind]
  refine h₂.dup hd₁ fun t₂ s₃ htable₂ hopened₂ h₃ => ?_
  rw [wp_bind]
  refine h₃.fileno hfp ?_
  have hnew : t₂.table t.lowest = some t.opened := by
    rw [htable₂, update_of_ne hsaved.symm, Descriptors.table_openLowest, update_self]
  rw [wp_bind]
  refine h₃.dup2 hnew (Descriptors.nonneg_of_open hd) fun t₃ s₄ htable₃ hopened₃ h₄ => ?_
  have hd' : d ≠ -1 := by
    have hpos : 0 ≤ d := Descriptors.nonneg_of_open hd
    omega
  rw [if_neg hd', wp_bind]
  refine h₄.fileno hfp ?_
  rw [if_neg hne₁.symm, wp_pure]
  refine hQ t₃ s₄ _ ⟨?_, ?_, ?_, ?_, ?_⟩ h₄
  · rw [htable₃, update_self]
  · have hclosed : t.openLowest.table t.openLowest.lowest = none := Descriptors.lowest_closed
    rwa [Descriptors.table_openLowest, update_of_ne hsaved] at hclosed
  · rw [htable₃, update_of_ne hne₁.symm, htable₂, update_self]
  · intro d' o' hd' ho'
    have hopen : t.openLowest.table d' = some o' := by
      rw [Descriptors.table_openLowest, update_of_ne (Descriptors.ne_lowest ho'), ho']
    rw [htable₃, update_of_ne hd', htable₂, update_of_ne (Descriptors.ne_lowest hopen), hopen]
  · rw [hopened₃, hopened₂, Descriptors.opened_openLowest]

/-- The replacement gets the file that the stream's descriptor led to. -/
theorem redirect3 (h : Standing s t l v) (hfp : l[fp]? = some (some d))
    (hd : t.table d = some o) {replacement f : ℕ} {r : ℤ}
    (hreplacement : l[replacement]? = some (some r)) (hr : t.table r = some f)
    {path : List UInt8} {Q : ℤ → IoState → Prop}
    (hQ : ∀ t₁ t' s' p, Redirected t t₁ d p o → t'.table = update t₁.table r (some o) →
      t'.opened = t₁.opened → Standing s' t' l v → Q p s') :
    wp (ioRedirect3 strerror fp path replacement) Q s := by
  rw [ioRedirect3, wp_bind]
  refine h.redirect2 hfp hd fun t₁ s₁ p hred h₁ => ?_
  have hp : p ≠ -1 := by
    have hpos : 0 ≤ p := Descriptors.nonneg_of_open hred.saved
    omega
  rw [if_neg hp, wp_bind]
  refine h₁.fileno hreplacement ?_
  rw [wp_bind]
  refine h₁.dup2 hred.saved (Descriptors.nonneg_of_open hr) fun t₂ s₂ htable hopened h₂ => ?_
  have hr' : r ≠ -1 := by
    have hpos : 0 ≤ r := Descriptors.nonneg_of_open hr
    omega
  rw [if_neg hr', wp_pure]
  exact hQ t₁ t₂ s₂ p hred htable hopened h₂

theorem captureStandard (h : Standing s t l v) (hfp : l[fp]? = some (some d))
    (hd : t.table d = some o) {path : List UInt8} {replaced : Replaced} {Q : ℤ → IoState → Prop}
    (hQ : ∀ t' s' r p, Captured t t' d r p o →
      Standing s' t' (l ++ [some r]) (replaced.setFd p (replaced.setStream (some l.length) v)) →
      Q 0 s') :
    wp (ioCaptureStandard strerror fp path replaced) Q s := by
  have hne : d ≠ t.lowest := Descriptors.ne_lowest hd
  rw [ioCaptureStandard, wp_bind]
  refine h.fopen_write fun s₁ h₁ => ?_
  rw [wp_bind]
  refine h₁.modifyVars fun s₂ h₂ => ?_
  have hfp₂ : (l ++ [some t.lowest])[fp]? = some (some d) := by
    rw [List.getElem?_append_left (List.getElem?_eq_some_iff.mp hfp).1, hfp]
  have hnew : (l ++ [some t.lowest])[l.length]? = some (some t.lowest) :=
    List.getElem?_concat_length
  have hd₂ : t.openLowest.table d = some o := by
    rw [Descriptors.table_openLowest, update_of_ne hne, hd]
  have hr₂ : t.openLowest.table t.lowest = some t.opened := by
    rw [Descriptors.table_openLowest, update_self]
  dsimp only
  rw [wp_bind]
  refine h₂.redirect3 hfp₂ hd₂ hnew hr₂ fun t₁ t₂ s₃ p hred htable hopened h₃ => ?_
  have hpr : p ≠ t.lowest := by
    rintro rfl
    exact absurd (hr₂.symm.trans hred.fresh) (by simp)
  rw [wp_bind]
  refine h₃.modifyVars fun s₄ h₄ => ?_
  have hp : p ≠ -1 := by
    have hpos : 0 ≤ p := Descriptors.nonneg_of_open hred.saved
    omega
  rw [if_neg hp, wp_pure]
  refine hQ t₂ s₄ t.lowest p ⟨⟨t.opened + 1, ?_, ?_⟩, ?_, ?_, ?_, ?_, hpr, ?_, ?_⟩ h₄
  · omega
  · rw [htable, update_of_ne hne, hred.moved, Descriptors.opened_openLowest]
  · exact Descriptors.lowest_closed
  · rw [htable, update_self]
  · have hclosed := hred.fresh
    rwa [Descriptors.table_openLowest, update_of_ne hpr] at hclosed
  · rw [htable, update_of_ne hpr, hred.saved]
  · intro d' o' hd' ho'
    have hlow : d' ≠ t.lowest := Descriptors.ne_lowest ho'
    rw [htable, update_of_ne hlow]
    refine hred.others d' o' hd' ?_
    rw [Descriptors.table_openLowest, update_of_ne hlow, ho']
  · rw [hopened, hred.opened, Descriptors.opened_openLowest]
    omega

theorem removeCaptured (h : Standing s t l v) {path : List UInt8} {Q : ℤ → IoState → Prop}
    (hQ : ∀ s', Standing s' t l v → Q 0 s') : wp (ioRemoveCaptured strerror path) Q s := by
  rw [ioRemoveCaptured, wp_bind]
  refine h.stat fun r s₁ h₁ hlink => ?_
  by_cases hr : r = 0
  · rw [if_neg (not_not.mpr hr), wp_bind]
    refine h₁.remove (hlink hr) fun s₂ h₂ => ?_
    rw [if_neg (not_not.mpr rfl), wp_pure]
    exact hQ s₂ h₂
  · rw [if_pos hr, wp_pure]
    exact hQ s₁ h₁

/-- Restoring closes the descriptor of the replacement and changes no other. -/
theorem restoreStandard (h : Standing s t l v) {replaced : Replaced} {r : ℤ}
    (hfp : replaced.stream v = some fp) (hl : l[fp]? = some (some r)) (hr : t.table r = some o)
    {f : ℕ} (hp : t.table (replaced.fd v) = some f) (hne : replaced.fd v ≠ r)
    {Q : ℤ → IoState → Prop}
    (hQ : ∀ t' s', t'.table = update t.table r none →
      Standing s' t' (l.set fp none) (replaced.setStream none v) → Q 0 s') :
    wp (ioRestoreStandard strerror replaced) Q s := by
  rw [ioRestoreStandard, wp_bind, wp_get, h.vars]
  simp only [hfp]
  rw [ioRestore]
  simp only [wp_bind]
  refine h.fflush hl fun s₁ h₁ => ?_
  rw [wp_bind]
  refine h₁.fileno hl ?_
  rw [wp_bind]
  refine h₁.close fun s₂ h₂ => ?_
  rw [wp_bind]
  refine h₂.fileno hl ?_
  have hp₂ : (t.close r).table (replaced.fd v) = some f := by
    rw [Descriptors.table_close, update_of_ne hne, hp]
  have hpos : 0 ≤ r := Descriptors.nonneg_of_open hr
  rw [wp_bind]
  refine h₂.dup2 hp₂ hpos fun t₃ s₃ htable _ h₃ => ?_
  rw [if_neg (show r ≠ -1 by omega), wp_pure, wp_bind]
  refine h₃.fclose hl fun s₄ h₄ => ?_
  rw [wp_bind]
  refine h₄.modifyVars fun s₅ h₅ => ?_
  rw [wp_pure]
  refine hQ (t₃.close r) s₅ ?_ h₅
  rw [Descriptors.table_close, htable, Descriptors.table_close, update_idem, update_idem]

end Stdio.Standing

namespace Cldm

open Prog Stdio Function

variable {strerror : ℕ → List UInt8} {s : IoState} {t : Descriptors} {l : List (Option ℤ)}
  {v : IoVars}

/-- The descriptor of `stdout`. -/
abbrev stdoutFileno : ℤ := 1

/-- The descriptor of `stderr`. -/
abbrev stderrFileno : ℤ := 2

/-- The standard streams are open at their descriptors, and no system call fails. -/
structure StandardStreams (s : IoState) : Prop where
  out : ∃ st : Stream, s.streams[stdout]? = some (some st) ∧ st.fd = stdoutFileno
  err : ∃ st : Stream, s.streams[stderr]? = some (some st) ∧ st.fd = stderrFileno
  outOpen : (s.fds.table stdoutFileno).isSome
  errOpen : (s.fds.table stderrFileno).isSome
  calls : s.faults = []

/-- The descriptors of the standard streams refer to the same open files in both states. -/
def SameOpenFiles (s s' : IoState) : Prop :=
  s'.fds.table stdoutFileno = s.fds.table stdoutFileno ∧
    s'.fds.table stderrFileno = s.fds.table stderrFileno

/-- `cldm_io_capture_stream`, then `cldm_io_capture_restore`. -/
def ioCaptureThenRestore (strerror : ℕ → List UInt8) (capture : Capture) : Prog IoState Unit := do
  let _ ← ioCaptureStream strerror capture
  ioCaptureRestore strerror capture

/-- The descriptor leads to a file that has been opened since. -/
def Diverted (t : Descriptors) (s : IoState) (d : ℤ) : Prop :=
  ∃ f, t.opened ≤ f ∧ s.fds.table d = some f

/-- A diverted descriptor does not lead to where it led before. -/
theorem Diverted.ne (h : Diverted t s stdoutFileno ∨ Diverted t s stderrFileno) :
    ¬ (s.fds.table stdoutFileno = t.table stdoutFileno ∧
      s.fds.table stderrFileno = t.table stderrFileno) := by
  rintro ⟨hout, herr⟩
  rcases h with ⟨f, hf, hd⟩ | ⟨f, hf, hd⟩
  · have hlt := t.known _ _ (hout.symm.trans hd)
    omega
  · have hlt := t.known _ _ (herr.symm.trans hd)
    omega

/-- A state whose streams write through the descriptors of the standard streams. -/
theorem StandardStreams.standing (h : StandardStreams s) :
    ∃ l : List (Option ℤ), Standing s s.fds l s.vars ∧ l[stdout]? = some (some stdoutFileno) ∧
      l[stderr]? = some (some stderrFileno) := by
  obtain ⟨st₁, hst₁, hfd₁⟩ := h.out
  obtain ⟨st₂, hst₂, hfd₂⟩ := h.err
  refine ⟨s.streams.map (Option.map Stream.fd), ⟨rfl, rfl, rfl, h.calls⟩, ?_, ?_⟩
  · rw [List.getElem?_map, hst₁, ← hfd₁]
    rfl
  · rw [List.getElem?_map, hst₂, ← hfd₂]
    rfl

/-- What `cldm_io_restore_stdout` and `cldm_io_restore_stderr` rely on: the replacement writes
through `r`, which is open, and `p` saves an open file. -/
structure Restorable (replaced : Replaced) (t : Descriptors) (l : List (Option ℤ)) (v : IoVars)
    (r : ℤ) : Prop where
  stream : ∃ fp, replaced.stream v = some fp ∧ l[fp]? = some (some r)
  shown : (t.table r).isSome
  saved : (t.table (replaced.fd v)).isSome
  apart : replaced.fd v ≠ r

/-- One of the two halves of `cldm_io_capture_restore`. -/
theorem Restorable.restore {replaced : Replaced} {r : ℤ} (hr : Restorable replaced t l v r)
    (h : Standing s t l v) {Q : ℤ → IoState → Prop}
    (hQ : ∀ t' s' fp, replaced.stream v = some fp → t'.table = update t.table r none →
      Standing s' t' (l.set fp none) (replaced.setStream none v) → Q 0 s') :
    wp (ioRestoreStandard strerror replaced) Q s := by
  obtain ⟨fp, hfp, hl⟩ := hr.stream
  obtain ⟨o, ho⟩ := Option.isSome_iff_exists.mp hr.shown
  obtain ⟨f, hf⟩ := Option.isSome_iff_exists.mp hr.saved
  exact h.restoreStandard hfp hl ho hf hr.apart fun t' s' => hQ t' s' fp hfp

theorem Captured.restorable {t' : Descriptors} {d r p : ℤ} {o : ℕ} (h : Captured t t' d r p o)
    (replaced : Replaced) (l : List (Option ℤ)) (v : IoVars) :
    Restorable replaced t' (l ++ [some r])
      (replaced.setFd p (replaced.setStream (some l.length) v)) r := by
  have hfd : replaced.fd (replaced.setFd p (replaced.setStream (some l.length) v)) = p := by
    cases replaced <;> rfl
  refine ⟨⟨l.length, ?_, List.getElem?_concat_length⟩, ?_, ?_, ?_⟩
  · cases replaced <;> rfl
  · rw [h.shown, Option.isSome_some]
  · rw [hfd, h.saved, Option.isSome_some]
  · rw [hfd]
    exact h.apart

/-- One of the halves of `cldm_io_capture_stream`, and what comes after it. -/
theorem wp_captureHalf (h : Standing s t l v) {fp : ℕ} {d : ℤ} {o : ℕ}
    (hfp : l[fp]? = some (some d)) (hd : t.table d = some o) (path : List UInt8)
    (replaced : Replaced) {β : Type} {x y : Prog IoState β} {Q : β → IoState → Prop}
    (hQ : ∀ t' s' r p, Captured t t' d r p o →
      Standing s' t' (l ++ [some r]) (replaced.setFd p (replaced.setStream (some l.length) v)) →
      wp y Q s') :
    wp (do if (← ioCaptureStandard strerror fp path replaced) ≠ 0 then x else y) Q s := by
  rw [wp_bind]
  refine h.captureStandard hfp hd fun t₁ s₁ r p hcap h₁ => ?_
  rw [if_neg (not_not.mpr rfl)]
  exact hQ t₁ s₁ r p hcap h₁

/-- One of the halves of `cldm_io_capture_restore`, and what comes after it. -/
theorem wp_restoreHalf {replaced : Replaced} {r : ℤ} (hr : Restorable replaced t l v r)
    (h : Standing s t l v) (path : List UInt8) {β : Type} {x y z : Prog IoState β}
    {Q : β → IoState → Prop}
    (hQ : ∀ t' s' fp, replaced.stream v = some fp → t'.table = update t.table r none →
      Standing s' t' (l.set fp none) (replaced.setStream none v) → wp y Q s') :
    wp (do
      let _ ← ioRemoveCaptured strerror path
      if (replaced.stream (← get).vars).isSome then
        if (← ioRestoreStandard strerror replaced) ≠ 0 then x else y
      else z) Q s := by
  rw [wp_bind]
  refine h.removeCaptured fun s₁ h₁ => ?_
  obtain ⟨fp, hfp, -⟩ := hr.stream
  rw [wp_bind, wp_get, h₁.vars, if_pos (by rw [hfp, Option.isSome_some]), wp_bind]
  refine hr.restore h₁ fun t₂ s₂ fp' hfp' htable h₂ => ?_
  rw [if_neg (not_not.mpr rfl)]
  exact hQ t₂ s₂ fp' hfp' htable h₂

theorem Captured.open_ne {t' : Descriptors} {d r p : ℤ} {o : ℕ} (h : Captured t t' d r p o)
    {d' : ℤ} {o' : ℕ} (ho' : t.table d' = some o') : d' ≠ r ∧ d' ≠ p := by
  constructor
  · rintro rfl
    exact absurd (h.replaced.symm.trans ho') (by simp)
  · rintro rfl
    exact absurd (h.fresh.symm.trans ho') (by simp)

/-- Capturing the other stream leaves a replacement as it is. -/
theorem Restorable.captured {t' : Descriptors} {r d r' p' : ℤ} {o' : ℕ}
    (hr : Restorable .out t l v r) (h : Captured t t' d r' p' o') (hrd : r ≠ d)
    (hpd : v.stdoutfd ≠ d) :
    Restorable .out t' (l ++ [some r'])
      (Replaced.err.setFd p' (Replaced.err.setStream (some l.length) v)) r := by
  obtain ⟨fp, hfp, hl⟩ := hr.stream
  obtain ⟨o, ho⟩ := Option.isSome_iff_exists.mp hr.shown
  obtain ⟨f, hf⟩ := Option.isSome_iff_exists.mp hr.saved
  refine ⟨⟨fp, hfp, ?_⟩, ?_, ?_, hr.apart⟩
  · rw [List.getElem?_append_left (List.getElem?_eq_some_iff.mp hl).1, hl]
  · rw [h.others r o hrd ho, Option.isSome_some]
  · have hsaved : t'.table v.stdoutfd = some f := h.others v.stdoutfd f hpd hf
    exact (congrArg Option.isSome hsaved).trans Option.isSome_some

/-- Restoring the one stream leaves the replacement of the other as it is. -/
theorem Restorable.restored {t' : Descriptors} {r r' : ℤ} {fp : ℕ}
    (hr : Restorable .err t l v r') (htable : t'.table = update t.table r none)
    (hfp : l[fp]? = some (some r)) (hne : r' ≠ r) (hpr : v.stderrfd ≠ r) :
    Restorable .err t' (l.set fp none) (Replaced.out.setStream none v) r' := by
  obtain ⟨fp', hfp', hl⟩ := hr.stream
  refine ⟨⟨fp', hfp', ?_⟩, ?_, ?_, hr.apart⟩
  · have hfps : fp ≠ fp' := by
      rintro rfl
      exact hne (Option.some.inj (Option.some.inj (hl.symm.trans hfp)))
    rw [List.getElem?_set_ne hfps, hl]
  · rw [htable, update_of_ne hne]
    exact hr.shown
  · show (t'.table v.stderrfd).isSome
    rw [htable, update_of_ne hpr]
    exact hr.saved

/-- After both functions, the descriptor of a stream that was captured leads to a new file. -/
structure AfterRestore (capture : Capture) (t : Descriptors) (s' : IoState) : Prop where
  none : capture = .captureNone → s'.fds = t
  diverted : capture ≠ .captureNone →
    Diverted t s' stdoutFileno ∨ Diverted t s' stderrFileno

theorem wp_captureThenRestore (strerror : ℕ → List UInt8) (h : StandardStreams s)
    (capture : Capture) :
    wp (ioCaptureThenRestore strerror capture) (fun _ s' => AfterRestore capture s.fds s') s := by
  obtain ⟨l, hs, hout, herr⟩ := h.standing
  obtain ⟨o₁, ho₁⟩ := Option.isSome_iff_exists.mp h.outOpen
  obtain ⟨o₂, ho₂⟩ := Option.isSome_iff_exists.mp h.errOpen
  rw [ioCaptureThenRestore, ioCaptureStream, ioCaptureRestore]
  cases capture with
  | captureNone =>
    exact ⟨(), s, rfl, fun _ => rfl, fun hne => absurd rfl hne⟩
  | captureStdout =>
    simp only [show Capture.has .captureStdout .captureStdout = true by decide,
      show Capture.has .captureStdout .captureStderr = false by decide, if_true, if_false,
      Bool.false_eq_true]
    rw [wp_bind]
    refine wp_captureHalf hs hout ho₁ captureStdoutPath .out fun t₁ s₁ r p hcap h₁ => ?_
    rw [wp_pure]
    refine wp_restoreHalf (hcap.restorable .out _ _) h₁ captureStdoutPath
      fun t₂ s₂ fp _ htable h₂ => ?_
    obtain ⟨f, hf, hmoved⟩ := hcap.moved
    rw [wp_pure]
    refine ⟨fun hnone => absurd hnone (by decide), fun _ => .inl ⟨f, hf, ?_⟩⟩
    rw [h₂.fds, htable, update_of_ne (hcap.open_ne ho₁).1, hmoved]
  | captureStderr =>
    simp only [show Capture.has .captureStderr .captureStdout = false by decide,
      show Capture.has .captureStderr .captureStderr = true by decide, if_true, if_false,
      Bool.false_eq_true]
    rw [wp_bind]
    refine wp_captureHalf hs herr ho₂ captureStderrPath .err fun t₁ s₁ r p hcap h₁ => ?_
    rw [wp_pure]
    refine wp_restoreHalf (hcap.restorable .err _ _) h₁ captureStderrPath
      fun t₂ s₂ fp _ htable h₂ => ?_
    obtain ⟨f, hf, hmoved⟩ := hcap.moved
    rw [wp_pure]
    refine ⟨fun hnone => absurd hnone (by decide), fun _ => .inr ⟨f, hf, ?_⟩⟩
    rw [h₂.fds, htable, update_of_ne (hcap.open_ne ho₂).1, hmoved]
  | captureAll =>
    simp only [show Capture.has .captureAll .captureStdout = true by decide,
      show Capture.has .captureAll .captureStderr = true by decide, if_true]
    rw [wp_bind]
    refine wp_captureHalf hs hout ho₁ captureStdoutPath .out fun t₁ s₁ r p hcap h₁ => ?_
    have herr₁ : (l ++ [some r])[stderr]? = some (some stderrFileno) := by
      rw [List.getElem?_append_left (List.getElem?_eq_some_iff.mp herr).1, herr]
    have ho₂' : t₁.table stderrFileno = some o₂ := hcap.others _ _ (by decide) ho₂
    refine wp_captureHalf h₁ herr₁ ho₂' captureStderrPath .err fun t₂ s₂ r' p' hcap' h₂ => ?_
    rw [wp_pure]
    have hr : r ≠ stderrFileno := (hcap.open_ne ho₂).1.symm
    have hp : p ≠ stderrFileno := (hcap.open_ne ho₂).2.symm
    have hout₂ := (hcap.restorable .out l s.vars).captured hcap' hr hp
    refine wp_restoreHalf hout₂ h₂ captureStdoutPath fun t₃ s₃ fp hfp htable₃ h₃ => ?_
    obtain rfl : l.length = fp := Option.some.inj hfp
    have hnew : (l ++ [some r] ++ [some r'])[l.length]? = some (some r) := by
      rw [List.append_assoc, List.getElem?_append_right (le_refl _), Nat.sub_self]
      rfl
    have herr₂ := hcap'.restorable .err (l ++ [some r])
      (Replaced.out.setFd p (Replaced.out.setStream (some l.length) s.vars))
    have herr₃ := herr₂.restored htable₃ hnew
      (hcap'.open_ne hcap.shown).1.symm (hcap'.open_ne hcap.shown).2.symm
    refine wp_restoreHalf herr₃ h₃ captureStderrPath fun t₄ s₄ fp' _ htable₄ h₄ => ?_
    obtain ⟨f, hf, hmoved⟩ := hcap.moved
    rw [wp_pure]
    refine ⟨fun hnone => absurd hnone (by decide), fun _ => .inl ⟨f, hf, ?_⟩⟩
    rw [h₄.fds, htable₄, update_of_ne (hcap'.open_ne hmoved).1, htable₃,
      update_of_ne (hcap.open_ne ho₁).1, hcap'.others _ _ (by decide) hmoved]

/-- Capturing and restoring leaves the standard streams where they were in the mode that captures
nothing, and in no other. -/
theorem io_capture_restore_iff (h : StandardStreams s) (capture : Capture) :
    wp (ioCaptureThenRestore strerror capture) (fun _ s' => SameOpenFiles s s') s ↔
      capture = .captureNone := by
  obtain ⟨b, s', hrun, hafter⟩ := wp_captureThenRestore strerror h capture
  rw [wp_of_some hrun]
  constructor
  · intro hsame
    by_contra hne
    exact Diverted.ne (hafter.diverted hne) hsame
  · intro hnone
    have hfds : s'.fds = s.fds := hafter.none hnone
    exact ⟨by rw [hfds], by rw [hfds]⟩

/-- Three descriptors that lead to one terminal. -/
def terminalDescriptors : Descriptors where
  table := fun d => if 0 ≤ d ∧ d < 3 then some 0 else none
  top := 3
  opened := 1
  closed := fun d hd => if_neg (by omega)
  known := by
    intro d f h
    split_ifs at h
    obtain rfl := Option.some.inj h
    exact Nat.one_pos

/-- A process that writes to a terminal. -/
def terminalState : IoState where
  fds := terminalDescriptors
  files := fun _ => ⟨0, false, 0⟩
  links := fun _ => none
  data := fun _ => []
  inodes := 1
  streams := [some ⟨0, []⟩, some ⟨1, []⟩, some ⟨2, []⟩]
  faults := []
  errno := 0
  vars := ⟨none, none, 0, 0⟩

theorem standardStreams_terminalState : StandardStreams terminalState where
  out := ⟨_, rfl, rfl⟩
  err := ⟨_, rfl, rfl⟩
  outOpen := by decide
  errOpen := by decide
  calls := rfl

theorem io_capture_restore_iff_none : StandardStreams terminalState ∧
    wp (ioCaptureThenRestore (fun _ => []) .captureNone)
      (fun _ s' => SameOpenFiles terminalState s') terminalState ∧
    ¬ wp (ioCaptureThenRestore (fun _ => []) .captureStderr)
      (fun _ s' => SameOpenFiles terminalState s') terminalState := by
  have h := standardStreams_terminalState
  refine ⟨h, (io_capture_restore_iff h _).mpr rfl, fun hsame => ?_⟩
  exact absurd ((io_capture_restore_iff h _).mp hsame) (by decide)

/-- After the standard output has been captured and restored, it leads to the capture file. -/
theorem io_capture_restore_stdout : StandardStreams terminalState ∧
    ¬ wp (ioCaptureThenRestore (fun _ => []) .captureStdout)
      (fun _ s' => SameOpenFiles terminalState s') terminalState := by
  refine ⟨standardStreams_terminalState, ?_⟩
  obtain ⟨b, s', hrun, hafter⟩ := wp_captureThenRestore (fun _ => [])
    standardStreams_terminalState .captureStdout
  rw [wp_of_some hrun]
  exact Diverted.ne (hafter.diverted (by decide))

end Cldm
