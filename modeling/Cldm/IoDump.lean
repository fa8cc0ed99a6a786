/-
Dumping the captured output.

`cldm_io_dump_to_stream` reads the captured bytes in lines of at most `CLDM_PGSIZE - 1`
bytes, takes the last byte of each for its newline, and prints the rest with a newline.
`dumped` is what comes out for the bytes still to be read.

* `dumped_eq_self_iff` — the bytes come out as they went in just if they are `WellCut`:
  no NUL byte, and every line closed by its newline within the buffer;
* `settles_ioDumpToStream` — what the function writes, for every captured output;
* `settles_ioCaptureDump` — the dump of one of the standard streams;
* `io_dump_to_stream_iff` — when it writes all of it.
-/
import Cldm.Io
import Mathlib.Data.List.TakeWhile

namespace Cldm

open Prog Stdio Function

/-! ### Lines -/

/-- What is printed of the bytes `bs`, which are read in lines of at most `n` bytes; nothing
where a line begins with a NUL byte. -/
def dumped (n : ℕ) (bs : List UInt8) : Option (List UInt8) :=
  if (lineChunk n bs).length = 0 then some []
  else
    let linelen := ((lineChunk n bs).takeWhile (· ≠ 0)).length
    if linelen = 0 then none
    else
      (dumped n (bs.drop (lineChunk n bs).length)).map fun out =>
        (lineChunk n bs).take (linelen - 1) ++ [newline] ++ out
termination_by bs.length
decreasing_by
  have hlen := congrArg List.length (lineChunk_append_drop n bs)
  rw [List.length_append] at hlen
  omega

/-- No NUL byte, and a newline among any `n` bytes in a row and among the last ones. -/
structure WellCut (n : ℕ) (bs : List UInt8) : Prop where
  noNul : 0 ∉ bs
  newline : ∀ i < bs.length, ∃ j, i ≤ j ∧ j < i + n ∧ bs[j]? = some newline

variable {n : ℕ} {bs line rest out : List UInt8}

theorem dumped_nil : dumped n [] = some [] := by
  rw [dumped, if_pos]
  cases n <;> rfl

theorem dumped_of_ne_nil (hn : 0 < n) (hbs : bs ≠ []) : dumped n bs =
    if ((lineChunk n bs).takeWhile (· ≠ 0)).length = 0 then none
    else (dumped n (bs.drop (lineChunk n bs).length)).map fun out =>
      (lineChunk n bs).take (((lineChunk n bs).takeWhile (· ≠ 0)).length - 1) ++ [newline] ++
        out := by
  rw [dumped, if_neg (length_lineChunk_pos hn hbs).ne']

theorem length_takeWhile_ne_zero_le (line : List UInt8) :
    (line.takeWhile (· ≠ 0)).length ≤ line.length :=
  (List.takeWhile_prefix _).length_le

/-- The output is not longer than the captured bytes. -/
theorem length_dumped_le (hn : 0 < n) (h : dumped n bs = some out) : out.length ≤ bs.length := by
  induction hlen : bs.length using Nat.strongRecOn generalizing bs out with
  | _ k ih =>
    subst hlen
    by_cases hbs : bs = []
    · rw [hbs, dumped_nil] at h
      rw [← Option.some.inj h, hbs]
    · have hsplit := congrArg List.length (lineChunk_append_drop n bs)
      rw [List.length_append] at hsplit
      have hpos := length_lineChunk_pos hn hbs
      have hle := length_takeWhile_ne_zero_le (lineChunk n bs)
      rw [dumped_of_ne_nil hn hbs] at h
      split_ifs at h with hzero
      obtain ⟨out', hout', rfl⟩ := Option.map_eq_some_iff.mp h
      have hrest := ih _ (by omega) hout' rfl
      rw [List.length_append, List.length_append, List.length_take, List.length_singleton]
      omega

/-- A line without a NUL byte is printed whole. -/
theorem length_takeWhile_eq_iff :
    (line.takeWhile (· ≠ 0)).length = line.length ↔ 0 ∉ line := by
  constructor
  · intro hlen hzero
    have hself : line.takeWhile (· ≠ 0) = line := (List.takeWhile_prefix _).eq_of_length hlen
    have hne := List.takeWhile_eq_self_iff.mp hself 0 hzero
    exact absurd hne (by decide)
  · intro hzero
    have hself : line.takeWhile (· ≠ 0) = line := by
      refine List.takeWhile_eq_self_iff.mpr fun b hb => decide_eq_true ?_
      rintro rfl
      exact hzero hb
    rw [hself]

/-- The byte that is taken for the newline is one. -/
theorem take_append_newline_iff :
    line.take (line.length - 1) ++ [newline] = line ↔ line.getLast? = some newline := by
  rw [← List.dropLast_eq_take]
  constructor
  · intro h
    rw [← h, List.getLast?_append, List.getLast?_singleton]
    rfl
  · intro h
    exact List.dropLast_append_getLast? newline h

theorem WellCut.noNul_append (h : 0 ∉ line) (h' : 0 ∉ rest) : 0 ∉ line ++ rest := by
  intro hmem
  rcases List.mem_append.mp hmem with hmem | hmem
  · exact h hmem
  · exact h' hmem

/-- Cutting off a line that is closed by its newline. -/
theorem wellCut_append (hlen : line.length ≤ n) (hlast : line.getLast? = some newline) :
    WellCut n (line ++ rest) ↔ 0 ∉ line ∧ WellCut n rest := by
  constructor
  · intro h
    have hno : 0 ∉ line ∧ 0 ∉ rest :=
      ⟨fun hmem => h.noNul (List.mem_append_left rest hmem),
        fun hmem => h.noNul (List.mem_append_right line hmem)⟩
    refine ⟨hno.1, hno.2, fun i hi => ?_⟩
    obtain ⟨j, hij, hjn, hj⟩ := h.newline (line.length + i) (by rw [List.length_append]; omega)
    refine ⟨j - line.length, by omega, by omega, ?_⟩
    rwa [List.getElem?_append_right (by omega)] at hj
  · rintro ⟨hline, hrest⟩
    refine ⟨WellCut.noNul_append hline hrest.noNul, fun i hi => ?_⟩
    rw [List.length_append] at hi
    by_cases hlt : i < line.length
    · refine ⟨line.length - 1, by omega, by omega, ?_⟩
      rw [List.getElem?_append_left (by omega), ← List.getLast?_eq_getElem?, hlast]
    · obtain ⟨j, hij, hjn, hj⟩ := hrest.newline (i - line.length) (by omega)
      refine ⟨line.length + j, by omega, by omega, ?_⟩
      rwa [List.getElem?_append_right (by omega), Nat.add_sub_cancel_left]

/-- Bytes that are cut well begin with a line that is closed by its newline. -/
theorem WellCut.closed (h : WellCut n bs) (hbs : bs ≠ []) :
    (lineChunk n bs).getLast? = some Cldm.newline := by
  obtain ⟨j, -, hjn, hj⟩ := h.newline 0 (List.length_pos_of_ne_nil hbs)
  exact getLast?_lineChunk (by omega) hj

/-- The captured bytes are printed as they are just if they are cut well. -/
theorem dumped_eq_self_iff (hn : 0 < n) : dumped n bs = some bs ↔ WellCut n bs := by
  induction hlen : bs.length using Nat.strongRecOn generalizing bs with
  | _ k ih =>
    subst hlen
    by_cases hbs : bs = []
    · rw [hbs, dumped_nil]
      exact ⟨fun _ => ⟨List.not_mem_nil, fun i hi => absurd hi (Nat.not_lt_zero i)⟩, fun _ => rfl⟩
    have hsplit : lineChunk n bs ++ bs.drop (lineChunk n bs).length = bs :=
      lineChunk_append_drop n bs
    have hlens := congrArg List.length hsplit
    rw [List.length_append] at hlens
    have hpos := length_lineChunk_pos hn hbs
    have hle := length_takeWhile_ne_zero_le (lineChunk n bs)
    have hrest := ih (bs.drop (lineChunk n bs).length).length (by omega) rfl
    rw [dumped_of_ne_nil hn hbs]
    constructor
    · intro h
      split_ifs at h with hzero
      obtain ⟨out, hout, heq⟩ := Option.map_eq_some_iff.mp h
      have hout' := length_dumped_le hn hout
      have hlen := congrArg List.length heq
      rw [List.length_append, List.length_append, List.length_take, List.length_singleton] at hlen
      -- no line may be printed shorter than it is
      have hwhole : ((lineChunk n bs).takeWhile (· ≠ 0)).length = (lineChunk n bs).length := by
        omega
      rw [hwhole] at heq
      obtain ⟨hline, rfl⟩ := List.append_inj (heq.trans hsplit.symm) (by
        rw [List.length_append, List.length_take, List.length_singleton]
        omega)
      have hlast := take_append_newline_iff.mp hline
      rw [← hsplit]
      exact (wellCut_append (length_lineChunk_le n bs) hlast).mpr
        ⟨length_takeWhile_eq_iff.mp hwhole, hrest.mp hout⟩
    · intro h
      have hlast := h.closed hbs
      rw [← hsplit] at h
      obtain ⟨hno, hcut⟩ := (wellCut_append (length_lineChunk_le n bs) hlast).mp h
      have hwhole := length_takeWhile_eq_iff.mpr hno
      rw [hwhole, if_neg hpos.ne', hrest.mpr hcut, Option.map_some,
        take_append_newline_iff.mpr hlast, hsplit]

/-! ### The loop -/

variable {strerror : ℕ → List UInt8} {s : IoState} {pgsize fp offset f out : ℕ} {d : ℤ}
  {dumpstream : Option ℕ} {text : List UInt8}

theorem fuelMono_ioDumpLoop (pgsize fp : ℕ) (dumpstream : Option ℕ) :
    FuelMono fun fuel => fuelLoop (ioDumpBody pgsize fp dumpstream) fuel () :=
  FuelMono.loop (fun i => FuelMono.const (ioDumpBody pgsize fp dumpstream i)) ()

/-- The loop reads at `offset` of `bs`, and `text` has been printed. -/
structure Dumping (fp : ℕ) (dumpstream : Option ℕ) (bs : List UInt8) (d : ℤ) (f : ℕ)
    (offset : ℕ) (text : List UInt8) (s : IoState) : Prop where
  reading : Reading s fp bs offset d f
  writing : Writing s (dumpstream.getD stdout) text
  apart : fp ≠ dumpstream.getD stdout

/-- One turn: the next line is printed, begins with a NUL byte, or is missing. -/
theorem ioDumpBody_cases (hpg : 1 < pgsize) (h : Dumping fp dumpstream bs d f offset text s)
    (i : Unit) :
    (bs.drop offset = [] ∧ ioDumpBody pgsize fp dumpstream i s = some (.inr (), s)) ∨
    (bs.drop offset ≠ [] ∧ dumped (pgsize - 1) (bs.drop offset) = none ∧
      ioDumpBody pgsize fp dumpstream i s = none) ∨
    ∃ printed offset' s', (bs.drop offset').length < (bs.drop offset).length ∧
      dumped (pgsize - 1) (bs.drop offset) =
        (dumped (pgsize - 1) (bs.drop offset')).map (printed ++ ·) ∧
      Dumping fp dumpstream bs d f offset' (text ++ printed) s' ∧
      ioDumpBody pgsize fp dumpstream i s = some (.inl (), s') := by
  obtain ⟨r, s₁, hrun, hr⟩ := h.reading.fgets pgsize
    (Q := fun r s' => bs.drop offset = [] ∧ r = none ∧ s' = s ∨
      bs.drop offset ≠ [] ∧ r = some (lineChunk (pgsize - 1) (bs.drop offset)) ∧
        Reading s' fp bs (offset + (lineChunk (pgsize - 1) (bs.drop offset)).length) d f ∧
        ∀ out text, Writing s out text → Writing s' out text)
    (fun hnil => .inl ⟨hnil, rfl, rfl⟩)
    (fun s' hne hread hwrite => .inr ⟨hne, rfl, hread, hwrite⟩)
  rcases hr with ⟨hnil, rfl, rfl⟩ | ⟨hne, rfl, hread, hwrite⟩
  · exact .inl ⟨hnil, bind_some hrun rfl⟩
  · set line := lineChunk (pgsize - 1) (bs.drop offset) with hline
    have hdumped := dumped_of_ne_nil (n := pgsize - 1) (by omega) hne
    rw [← hline] at hdumped
    -- the newline is taken off at `linelen - 1`, which is outside the buffer for an empty line
    by_cases hzero : (line.takeWhile (· ≠ 0)).length = 0
    · rw [if_pos hzero] at hdumped
      refine .inr (.inl ⟨hne, hdumped, bind_some hrun ?_⟩)
      simp only [hzero, if_true]
    · rw [if_neg hzero, List.drop_drop] at hdumped
      obtain ⟨_, s₂, hlog, hw, -, hr⟩ := (hwrite _ _ h.writing).fprintf
        (line.take ((line.takeWhile (· ≠ 0)).length - 1) ++ [newline])
        (Q := fun _ s' => Writing s' (dumpstream.getD stdout) (text ++
            (line.take ((line.takeWhile (· ≠ 0)).length - 1) ++ [newline])) ∧
          s'.faults = s₁.faults ∧
          ∀ fp bs offset d f, fp ≠ dumpstream.getD stdout → Reading s₁ fp bs offset d f →
            Reading s' fp bs offset d f)
        (fun s' hw hfaults hr => ⟨hw, hfaults, hr⟩)
      refine .inr (.inr ⟨_, offset + line.length, s₂, ?_, hdumped,
        ⟨hr _ _ _ _ _ h.apart hread, hw, h.apart⟩, bind_some hrun ?_⟩)
      · have hpos : 0 < line.length := length_lineChunk_pos (by omega) hne
        have hpos' := List.length_pos_of_ne_nil hne
        rw [List.length_drop] at hpos' ⊢
        rw [List.length_drop]
        omega
      · simp only [hzero, if_false]
        exact bind_some hlog rfl

/-- The loop prints what is `dumped` of the bytes that are left. -/
theorem settles_ioDumpLoop (hpg : 1 < pgsize)
    (h : Dumping fp dumpstream bs d f offset text s) :
    Settles (fun fuel => fuelLoop (ioDumpBody pgsize fp dumpstream) fuel ())
      (fun _ s' => ∃ out offset', dumped (pgsize - 1) (bs.drop offset) = some out ∧
        Dumping fp dumpstream bs d f offset' (text ++ out) s')
      (dumped (pgsize - 1) (bs.drop offset) = none) s := by
  have step : ∀ k (i : Unit) s, (∃ offset' printed, k = (bs.drop offset').length ∧
      dumped (pgsize - 1) (bs.drop offset) =
        (dumped (pgsize - 1) (bs.drop offset')).map (printed ++ ·) ∧
      Dumping fp dumpstream bs d f offset' (text ++ printed) s) →
      Settles (fun _ => ioDumpBody pgsize fp dumpstream i)
        (fun r s' => Sum.elim
          (fun _ => ∃ k' < k, ∃ offset' printed, k' = (bs.drop offset').length ∧
            dumped (pgsize - 1) (bs.drop offset) =
              (dumped (pgsize - 1) (bs.drop offset')).map (printed ++ ·) ∧
            Dumping fp dumpstream bs d f offset' (text ++ printed) s')
          (fun _ => ∃ out offset', dumped (pgsize - 1) (bs.drop offset) = some out ∧
            Dumping fp dumpstream bs d f offset' (text ++ out) s') r)
        (dumped (pgsize - 1) (bs.drop offset) = none) s := by
    rintro k i s ⟨offset', printed, rfl, hdumped, hI⟩
    -- what has been printed and what is still dumped make up what is dumped of all the bytes
    rcases ioDumpBody_cases hpg hI i with
      ⟨hnil, hrun⟩ | ⟨-, hnone, hrun⟩ | ⟨printed', offset'', s', hlt, hdumped', hI', hrun⟩
    · rw [hnil, dumped_nil] at hdumped
      refine .const (.inl ⟨.inr (), s, hrun, printed, offset', ?_, hI⟩)
      rw [hdumped, Option.map_some, List.append_nil]
    · refine .const (.inr ⟨?_, hrun⟩)
      rw [hdumped, hnone, Option.map_none]
    · refine .const (.inl ⟨.inl (), s', hrun, _, hlt, offset'', printed ++ printed', rfl, ?_, ?_⟩)
      · rw [hdumped, hdumped', Option.map_map]
        congr 1
        funext out
        exact (List.append_assoc printed printed' out).symm
      · rw [← List.append_assoc]
        exact hI'
  refine settles_loop (fun i => FuelMono.const _) step _ () s ⟨offset, [], rfl, ?_, ?_⟩
  · simp only [List.nil_append, Option.map_id']
  · rw [List.append_nil]
    exact h

/-! ### The function -/

namespace Replaced

/-- The flag of a stream, its number, its file and its name. -/
def flag : Replaced → Capture
  | .out => .captureStdout
  | .err => .captureStderr

def orig : Replaced → ℕ
  | .out => stdout
  | .err => stderr

def path : Replaced → List UInt8
  | .out => captureStdoutPath
  | .err => captureStderrPath

def name : Replaced → List UInt8
  | .out => ascii "stdout"
  | .err => ascii "stderr"

end Replaced

variable {redirected : ℕ} {capture name captured : List UInt8}

/-- The stream appends to the file at the path `capture`; `captured` is what has been written to
it so far, up to the bytes that are still pending. -/
structure Capturing (s : IoState) (redirected : ℕ) (capture captured : List UInt8) : Prop where
  stream : ∃ d f i pending, s.streams[redirected]? = some (some ⟨d, pending⟩) ∧
    s.fds.table d = some f ∧ (s.files f).inode = i ∧ (s.files f).append = true ∧
    s.links capture = some i ∧ captured = s.data i ++ pending
  calls : s.faults = []

/-- What is printed in front of the captured bytes. -/
def dumpHeader (name : List UInt8) : List UInt8 :=
  ascii "\nCaptured " ++ name ++ ascii ":" ++ [newline]

/-- What `cldm_io_dump_to_stream` prints: nothing for an empty file, else the header and what is
`dumped` of the captured bytes. -/
def Dumped (pgsize : ℕ) (name captured printed : List UInt8) : Prop :=
  captured = [] ∧ printed = [] ∨
    captured ≠ [] ∧ ∃ body, dumped (pgsize - 1) captured = some body ∧
      printed = dumpHeader name ++ body

/-- The captured file, opened for reading. -/
theorem Capturing.wp_open (h : Capturing s redirected capture captured)
    (hw : Writing s (dumpstream.getD stdout) text) (hne : dumpstream.getD stdout ≠ redirected)
    {Q : Option ℕ → IoState → Prop}
    (hQ : ∀ s' fp d f, Dumping fp dumpstream captured d f 0 text s' → s'.faults = [] →
      Q (some fp) s') :
    wp (do fflush redirected; fopen capture .read) Q s := by
  obtain ⟨d, f, i, pending, hstream, hd, rfl, happend, hlink, rfl⟩ := h.stream
  rw [wp_bind]
  refine wp_fflush_append hstream hd happend fun s₁ hdata hlinks hfaults hother => ?_
  rw [← hlinks] at hlink
  refine wp_fopen_read (hfaults.trans h.calls) hlink fun s₂ fp d₂ f₂ hread hfaults₂ hkeep => ?_
  rw [hdata] at hread
  obtain ⟨hw₂, hapart⟩ := hkeep _ _ (hother _ _ hne hw)
  exact hQ s₂ fp d₂ f₂ ⟨hread, hw₂, hapart⟩ hfaults₂

/-- Closing the captured file. -/
theorem Dumping.wp_finish (h : Dumping fp dumpstream bs d f offset text s) :
    wp (do fclose fp; return (0 : ℤ))
      (fun r s' => r = 0 ∧ received s' (dumpstream.getD stdout) = text) s := by
  rw [wp_bind]
  refine h.reading.fclose fun s' hkeep => ?_
  rw [wp_pure]
  exact ⟨rfl, (hkeep _ _ h.apart.symm h.writing).received⟩

theorem settles_ioDumpToStream (hpg : 1 < pgsize) (h : Capturing s redirected capture captured)
    (hw : Writing s (dumpstream.getD stdout) text) (hne : dumpstream.getD stdout ≠ redirected) :
    Settles (ioDumpToStream strerror pgsize redirected capture dumpstream name)
      (fun r s' => r = 0 ∧ ∃ printed, Dumped pgsize name captured printed ∧
        received s' (dumpstream.getD stdout) = text ++ printed)
      (dumped (pgsize - 1) captured = none) s := by
  have hopen : wp (do fflush redirected; fopen capture .read)
      (fun r s' => ∃ fp d f, r = some fp ∧ Dumping fp dumpstream captured d f 0 text s' ∧
        s'.faults = []) s :=
    h.wp_open hw hne fun s' fp d f hD hfaults => ⟨fp, d, f, rfl, hD, hfaults⟩
  rw [wp_bind] at hopen
  refine .wp_bind (wp_mono hopen fun _ s₁ h₁ => .wp_bind (wp_mono h₁ fun r s₂ h₂ => ?_))
  obtain ⟨fp, d, f, rfl, hD, hfaults⟩ := h₂
  refine .wp_bind (hD.reading.fileno (.wp_bind (hD.reading.fstat hfaults ?_)))
  dsimp only
  by_cases hnil : captured = []
  · -- an empty file is left alone
    subst hnil
    have hlen : ¬ ([] : List UInt8).length ≠ 0 := not_not.mpr rfl
    simp only [if_neg hlen]
    refine .const (.inl ?_)
    refine wp_mono hD.wp_finish fun r s' hr => ⟨hr.1, [], .inl ⟨rfl, rfl⟩, ?_⟩
    rw [hr.2, List.append_nil]
  · have hlen : captured.length ≠ 0 := (List.length_pos_of_ne_nil hnil).ne'
    simp only [if_pos hlen]
    refine .wp_bind (hD.writing.fprintf _ fun s₃ hw₃ _ hkeep => ?_)
    have hD₃ : Dumping fp dumpstream captured d f 0 (text ++ dumpHeader name) s₃ :=
      ⟨hkeep _ _ _ _ _ hD.apart hD.reading, hw₃, hD.apart⟩
    have hloop := settles_ioDumpLoop hpg hD₃
    rw [List.drop_zero] at hloop
    refine .bind (fuelMono_ioDumpLoop pgsize fp dumpstream) (hloop.mono fun _ s₄ h₄ => ?_)
    obtain ⟨body, offset', hbody, hD₄⟩ := h₄
    refine .const (.inl (wp_mono hD₄.wp_finish fun r s' hr => ?_))
    refine ⟨hr.1, dumpHeader name ++ body, .inr ⟨hnil, body, hbody, rfl⟩, ?_⟩
    rw [hr.2, List.append_assoc]

theorem fuelMono_ioDumpToStream (strerror : ℕ → List UInt8) (pgsize redirected : ℕ)
    (capture : List UInt8) (dumpstream : Option ℕ) (name : List UInt8) :
    FuelMono (ioDumpToStream strerror pgsize redirected capture dumpstream name) := by
  refine (FuelMono.const _).bind fun _ => (FuelMono.const _).bind fun fp => ?_
  cases fp with
  | none => exact .const _
  | some fp =>
    refine (FuelMono.const _).bind fun fd => (FuelMono.const _).bind fun size => ?_
    cases size with
    | none => exact .const _
    | some size =>
      refine .ite _ ((FuelMono.const _).bind fun _ => ?_) (.const _)
      exact (fuelMono_ioDumpLoop pgsize fp dumpstream).bind fun _ => .const _

/-- With one of the streams captured, what it has received goes to the stream that it replaced. -/
theorem settles_ioCaptureDump {sp : ℕ} (hpg : 1 < pgsize) (which : Replaced)
    (hvar : which.stream s.vars = some sp)
    (h : Capturing s which.orig which.path captured) (hw : Writing s sp text)
    (hne : sp ≠ which.orig) :
    Settles (ioCaptureDump strerror pgsize which.flag none)
      (fun r s' => r = true ∧ ∃ printed, Dumped pgsize which.name captured printed ∧
        received s' sp = text ++ printed)
      (dumped (pgsize - 1) captured = none) s := by
  have hdump : Settles
      (ioDumpToStream strerror pgsize which.orig which.path (some sp) which.name) _ _ s :=
    settles_ioDumpToStream hpg h hw hne
  cases which with
  | out =>
    refine Settles.wp_bind ((wp_get ..).mpr ?_)
    rw [show s.vars.stdout = some sp from hvar]
    refine .bind (fuelMono_ioDumpToStream _ _ _ _ _ _) (hdump.mono fun status s' hs => ?_)
    obtain ⟨rfl, hprinted⟩ := hs
    exact .const (.inl ((wp_pure ..).mpr ⟨rfl, hprinted⟩))
  | err =>
    have hflag : Replaced.err.flag.has .captureStdout = false := by decide
    have hflag' : Replaced.err.flag.has .captureStderr = true := by decide
    unfold ioCaptureDump
    simp only [hflag, hflag', Bool.false_eq_true, if_false, if_true]
    refine Settles.wp_bind ((wp_get ..).mpr ?_)
    rw [show s.vars.stderr = some sp from hvar]
    refine .bind (fuelMono_ioDumpToStream _ _ _ _ _ _) (hdump.mono fun status s' hs => ?_)
    obtain ⟨rfl, hprinted⟩ := hs
    exact .const (.inl ((wp_pure ..).mpr ⟨rfl, hprinted⟩))

/-- The dump stream gets the header and then all of the captured bytes, with at most one newline
behind them; where nothing has been captured, the header may be missing. -/
def DumpsWhole (strerror : ℕ → List UInt8) (pgsize redirected : ℕ) (capture : List UInt8)
    (dumpstream : Option ℕ) (name captured : List UInt8) (s : IoState) : Prop :=
  Total (ioDumpToStream strerror pgsize redirected capture dumpstream name)
    (fun _ s' => ∃ head tail, (head = dumpHeader name ∨ head = [] ∧ captured = []) ∧
      (tail = [] ∨ tail = [newline]) ∧
      received s' (dumpstream.getD stdout) =
        received s (dumpstream.getD stdout) ++ head ++ captured ++ tail) s

/-- What is dumped whole has been cut well. -/
theorem DumpsWhole.wellCut (hpg : 1 < pgsize) (h : Capturing s redirected capture captured)
    (hw : Writing s (dumpstream.getD stdout) text) (hne : dumpstream.getD stdout ≠ redirected)
    (hwhole : DumpsWhole strerror pgsize redirected capture dumpstream name captured s) :
    WellCut (pgsize - 1) captured := by
  have hn : 0 < pgsize - 1 := by omega
  obtain ⟨r, s', hret, head, tail, hhead, htail, hreceived⟩ := hwhole
  obtain ⟨-, printed, hprinted, hreceived'⟩ :=
    (settles_ioDumpToStream hpg h hw hne).of_returns hret
  rw [hreceived', hw.received, List.append_assoc, List.append_assoc] at hreceived
  have heq : printed = head ++ (captured ++ tail) := List.append_cancel_left hreceived
  refine (dumped_eq_self_iff hn).mp ?_
  rcases hprinted with ⟨rfl, -⟩ | ⟨hnil, body, hbody, rfl⟩
  · exact dumped_nil
  · obtain rfl : head = dumpHeader name := by
      rcases hhead with hhead | ⟨-, hnil'⟩
      · exact hhead
      · exact absurd hnil' hnil
    have hbody' : body = captured ++ tail := List.append_cancel_left heq
    -- no more is printed than was captured, which leaves nothing for the tail
    have hlen := length_dumped_le hn hbody
    rw [hbody', List.length_append] at hlen
    obtain rfl : tail = [] := List.eq_nil_of_length_eq_zero (by omega)
    rw [hbody, hbody', List.append_nil]

/-- All of the captured bytes are dumped just if they are cut well. -/
theorem io_dump_to_stream_iff (hpg : 1 < pgsize) (h : Capturing s redirected capture captured)
    (hw : Writing s (dumpstream.getD stdout) text) (hne : dumpstream.getD stdout ≠ redirected) :
    DumpsWhole strerror pgsize redirected capture dumpstream name captured s ↔
      WellCut (pgsize - 1) captured := by
  constructor
  · exact fun hwhole => hwhole.wellCut hpg h hw hne
  · intro hcut
    have hself := (dumped_eq_self_iff (by omega)).mpr hcut
    have hrun : Settles (ioDumpToStream strerror pgsize redirected capture dumpstream name) _ _ s :=
      settles_ioDumpToStream hpg h hw hne
    obtain ⟨r, s', hret, -, printed, hprinted, hreceived⟩ := hrun.total (by rw [hself]; simp)
    refine ⟨r, s', hret, ?_⟩
    simp only [hreceived, hw.received]
    rcases hprinted with ⟨rfl, rfl⟩ | ⟨hnil, body, hbody, rfl⟩
    · refine ⟨[], [], .inr ⟨rfl, rfl⟩, .inl rfl, ?_⟩
      simp only [List.append_nil]
    · -- lines that are cut well are printed as they are
      obtain rfl : captured = body := Option.some.inj (hself.symm.trans hbody)
      refine ⟨dumpHeader name, [], .inl rfl, .inl rfl, ?_⟩
      simp only [List.append_nil, List.append_assoc]

/-- Descriptor 1 leads to the captured file, descriptor 2 to a terminal. -/
def capturedDescriptors : Descriptors where
  table := fun d => if d = 1 then some 0 else if d = 2 then some 1 else none
  top := 3
  opened := 2
  closed := fun d hd => by rw [if_neg (by omega), if_neg (by omega)]
  known := by
    intro d f h
    split_ifs at h
    · obtain rfl := Option.some.inj h
      exact Nat.two_pos
    · obtain rfl := Option.some.inj h
      exact Nat.one_lt_two

/-- `captured` has been written to the standard output while it was captured. -/
def capturedState (captured : List UInt8) : IoState where
  fds := capturedDescriptors
  files := fun f => ⟨f, true, 0⟩
  links := fun path => if path = captureStdoutPath then some 0 else none
  data := fun i => if i = 0 then captured else []
  inodes := 2
  streams := [none, some ⟨1, []⟩, some ⟨2, []⟩]
  faults := []
  errno := 0
  vars := ⟨none, none, 0, 0⟩

theorem capturing_capturedState (captured : List UInt8) :
    Capturing (capturedState captured) stdout captureStdoutPath captured where
  stream := by
    refine ⟨1, 0, 0, [], rfl, rfl, rfl, rfl, ?_, (List.append_nil captured).symm⟩
    simp only [capturedState, if_true]
  calls := rfl

/-- Two lines, with an empty one between them. -/
def threeLines : List UInt8 := ascii "ok\n" ++ (ascii "\n" ++ (ascii "done\n" ++ []))

theorem wellCut_threeLines : WellCut 4095 threeLines := by
  have hnil : WellCut 4095 [] := ⟨by decide, fun i hi => absurd hi (Nat.not_lt_zero i)⟩
  have hlast := (wellCut_append (by decide) (by decide)).mpr
    ⟨(by decide : 0 ∉ ascii "done\n"), hnil⟩
  have hempty := (wellCut_append (by decide) (by decide)).mpr
    ⟨(by decide : 0 ∉ ascii "\n"), hlast⟩
  exact (wellCut_append (by decide) (by decide)).mpr ⟨by decide, hempty⟩

theorem io_dump_to_stream_iff_lines :
    Capturing (capturedState threeLines) stdout captureStdoutPath threeLines ∧
    DumpsWhole (fun _ => []) 4096 stdout captureStdoutPath (some stderr) (ascii "stdout")
      threeLines (capturedState threeLines) :=
  have h := capturing_capturedState threeLines
  ⟨h, (io_dump_to_stream_iff (by decide) h ⟨2, rfl⟩ (by decide)).mpr wellCut_threeLines⟩

/-- Of output without a newline, the last byte is lost. -/
theorem io_dump_to_stream_no_newline :
    Capturing (capturedState (ascii "ok")) stdout captureStdoutPath (ascii "ok") ∧
    ¬ DumpsWhole (fun _ => []) 4096 stdout captureStdoutPath (some stderr) (ascii "stdout")
      (ascii "ok") (capturedState (ascii "ok")) := by
  refine ⟨capturing_capturedState _, fun hwhole => ?_⟩
  have hw : Writing (capturedState (ascii "ok")) stderr [] := ⟨2, rfl⟩
  have hcut := hwhole.wellCut (by decide) (capturing_capturedState _) hw (by decide)
  obtain ⟨j, hj, -, hnl⟩ := hcut.newline 1 (by decide)
  rcases j with _ | _ | j
  · exact absurd hj (by decide)
  · exact absurd hnl (by decide)
  · exact absurd hnl (by simp [ascii])

end Cldm
