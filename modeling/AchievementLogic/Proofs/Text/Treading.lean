import AchievementLogic.Proofs.Text.Alphabet

/-!
# Where readers stop

A reader *treads* on legible letters only: wherever it stops, with a value or with an error, it has
stepped over no others, and the place that an error names is one that the reader came by.
-/

namespace AchievementLogic

open Text

variable {Value Result : Type}

namespace Text.Scan

/-! ## Numbers -/

/-- The number is written with legible bytes. -/
def ReachesBy (read : Scan → Option (Value × Scan)) (scan : Scan) : Prop :=
  ∀ value after, read scan = some (value, after) → scan.Reaches after

theorem reachesBy_readDigits (base : Nat) (scan : Scan) : ReachesBy (·.readDigits base) scan := by
  intro value after hread
  simp only [readDigits] at hread
  split at hread
  · cases hread
  · cases hread
    exact scan.reaches_skip_digitRun base

theorem reachesBy_readSigned (scan : Scan) : ReachesBy readSigned scan := by
  intro value after hread
  simp only [readSigned] at hread
  split at hread
  case h_1 hpeek =>
    obtain ⟨⟨size, last⟩, hsize, heq⟩ := Option.map_eq_some_iff.mp hread
    cases heq
    exact (reaches_skip_one hpeek (by decide)).trans (reachesBy_readDigits 10 _ size last hsize)
  case h_2 hpeek =>
    exact (reaches_skip_one hpeek (by decide)).trans (reachesBy_readDigits 10 _ value after hread)
  case h_3 => exact reachesBy_readDigits 10 scan value after hread

/-! ### Decimal fractions -/

/-- The place after a sign, if one comes next. -/
def afterSign (scan : Scan) : Scan :=
  if scan.peek = some '-' || scan.peek = some '+' then scan.skip 1 else scan

def afterWhole (scan : Scan) : Scan :=
  scan.afterSign.skip (scan.afterSign.digitRun 10).length

/-- The digits after a point, none if no point comes next. -/
def fraction (scan : Scan) : List Nat :=
  if scan.peek = some '.' then (scan.skip 1).digitRun 10 else []

/-- The reading of a decimal fraction by the places that it passes: those after the sign and after
the whole part. -/
theorem readFloat_eq (scan : Scan) :
    scan.readFloat =
      if scan.afterWhole.fraction.isEmpty then
        if (scan.afterSign.digitRun 10).isEmpty then none
        else some (Binary64.ofRatio (scan.peek = some '-')
          (decimalValue (scan.afterSign.digitRun 10)) 1, scan.afterWhole)
      else
        some (Binary64.ofRatio (scan.peek = some '-')
          (decimalValue (scan.afterSign.digitRun 10 ++ scan.afterWhole.fraction))
          (Nat.pow 10 scan.afterWhole.fraction.length),
          scan.afterWhole.skip (scan.afterWhole.fraction.length + 1)) := rfl

theorem reaches_afterSign (scan : Scan) : scan.Reaches scan.afterSign := by
  rw [afterSign]
  split
  case isTrue hsign =>
    simp only [Bool.or_eq_true, decide_eq_true_eq] at hsign
    rcases hsign with hminus | hplus
    · exact reaches_skip_one hminus (by decide)
    · exact reaches_skip_one hplus (by decide)
  case isFalse => exact .refl scan

theorem reaches_afterWhole (scan : Scan) : scan.Reaches scan.afterWhole :=
  scan.reaches_afterSign.trans (reaches_skip_digitRun _ 10)

theorem fraction_eq_of_ne_nil {scan : Scan} (hsome : scan.fraction ≠ []) :
    scan.peek = some '.' ∧ scan.fraction = (scan.skip 1).digitRun 10 := by
  have hpoint : scan.peek = some '.' := by
    by_contra hnone
    rw [fraction, if_neg hnone] at hsome
    exact hsome rfl
  exact ⟨hpoint, by rw [fraction, if_pos hpoint]⟩

theorem reaches_afterFraction {scan : Scan} (hsome : scan.fraction ≠ []) :
    scan.Reaches (scan.skip (scan.fraction.length + 1)) := by
  obtain ⟨hpoint, hfraction⟩ := fraction_eq_of_ne_nil hsome
  have hskip : (scan.skip 1).skip ((scan.skip 1).digitRun 10).length =
      scan.skip (scan.fraction.length + 1) := by
    rw [hfraction, Nat.add_comm, skip_skip]
  rw [← hskip]
  exact (reaches_skip_one hpoint (by decide)).trans (reaches_skip_digitRun (scan.skip 1) 10)

theorem reachesBy_readFloat (scan : Scan) : ReachesBy readFloat scan := by
  intro value after hread
  have hwhole := scan.reaches_afterWhole
  rw [readFloat_eq] at hread
  by_cases hfraction : scan.afterWhole.fraction.isEmpty
  · rw [if_pos hfraction, Option.ite_none_left_eq_some] at hread
    cases hread.2
    exact hwhole
  · rw [if_neg hfraction] at hread
    cases hread
    exact hwhole.trans (reaches_afterFraction (by simpa using hfraction))

end Text.Scan

namespace Reader

/-! ## Readers -/

/-- The reader steps over legible bytes only; if it fails, then at a place that is not before
`lowest` and not behind where it stopped. -/
structure Treads (reader : Reader Value) (lowest : Nat) (scan : Scan) : Prop where
  ok : ∀ value after, reader.run scan = .ok value after → scan.Reaches after
  error : ∀ error after, reader.run scan = .error error after → scan.Reaches after ∧
    ∃ position, error.position? = some position ∧ lowest ≤ position ∧ position ≤ after.position

variable {scan : Scan} {lowest : Nat}

/-- A reader that gives a value here and steps over legible bytes for it. -/
theorem Treads.of_run_ok {reader : Reader Value} {value : Value} {after : Scan}
    (hrun : reader.run scan = .ok value after) (hreaches : scan.Reaches after) :
    Treads reader lowest scan := by
  constructor
  · intro found last hfound
    rw [hrun] at hfound
    cases hfound
    exact hreaches
  · intro error last herror
    rw [hrun] at herror
    cases herror

theorem Treads.pure (value : Value) : Treads (Pure.pure value) lowest scan :=
  .of_run_ok rfl (.refl scan)

theorem Treads.fail (cause : ParseError.Cause) {position : Nat} (hlowest : lowest ≤ position)
    (hscan : position ≤ scan.position) :
    Treads (Reader.fail cause position : Reader Value) lowest scan := by
  constructor
  · intro value after hrun
    cases hrun
  · intro error after hrun
    cases hrun
    exact ⟨.refl scan, position, rfl, hlowest, hscan⟩

/-- Of two readers in a row the second one has to tread only from places that the first one reaches.
-/
theorem Treads.bind {first : Reader Value} {next : Value → Reader Result}
    (hfirst : Treads first lowest scan)
    (hnext : ∀ value after, first.run scan = .ok value after → scan.Reaches after →
      Treads (next value) lowest after) : Treads (first >>= next) lowest scan := by
  constructor
  · intro result last hrun
    rw [EStateM.run_bind] at hrun
    cases hvalue : first.run scan with
    | ok value between =>
        rw [hvalue] at hrun
        have hbetween := hfirst.ok value between hvalue
        exact hbetween.trans ((hnext value between hvalue hbetween).ok result last hrun)
    | error error between =>
        rw [hvalue] at hrun
        cases hrun
  · intro error last hrun
    rw [EStateM.run_bind] at hrun
    cases hvalue : first.run scan with
    | ok value between =>
        rw [hvalue] at hrun
        have hbetween := hfirst.ok value between hvalue
        obtain ⟨hlast, hposition⟩ := (hnext value between hvalue hbetween).error error last hrun
        exact ⟨hbetween.trans hlast, hposition⟩
    | error earlier between =>
        rw [hvalue] at hrun
        cases hrun
        exact hfirst.error error last hvalue

theorem Treads.map {reader : Reader Value} (hreader : Treads reader lowest scan)
    (change : Value → Result) : Treads (do return change (← reader)) lowest scan :=
  hreader.bind fun value _ _ _ => Treads.pure (change value)

/-! A reader that only looks leaves everything to the next one. -/

theorem Treads.get_bind {next : Scan → Reader Result} (hnext : Treads (next scan) lowest scan) :
    Treads (get >>= next) lowest scan := ⟨hnext.ok, hnext.error⟩

theorem Treads.position_bind {next : Nat → Reader Result}
    (hnext : Treads (next scan.position) lowest scan) :
    Treads (Reader.position >>= next) lowest scan := ⟨hnext.ok, hnext.error⟩

theorem Treads.peek_bind {next : Option Char → Reader Result}
    (hnext : Treads (next scan.peek) lowest scan) :
    Treads (Reader.peek >>= next) lowest scan := ⟨hnext.ok, hnext.error⟩

theorem Treads.skip {count : Nat} (hreaches : scan.Reaches (scan.skip count)) :
    Treads (Reader.skip count) lowest scan :=
  .of_run_ok rfl hreaches

/-- Stepping over a legible letter and treading on from there. -/
theorem Treads.skip_one {next : Reader Result} {letter : Char} (hpeek : scan.peek = some letter)
    (hletter : isLegible letter = true) (hnext : Treads next lowest (scan.skip 1)) :
    Treads (Reader.skip 1 >>= fun _ => next) lowest scan := by
  refine (Treads.skip (Scan.reaches_skip_one hpeek hletter)).bind ?_
  intro value after hrun _
  cases hrun
  exact hnext

theorem Treads.accepts {step : Scan → Option Scan}
    (hstep : ∀ after, step scan = some after → scan.Reaches after) :
    Treads (Reader.accepts step) lowest scan := by
  cases hfound : step scan with
  | none => exact .of_run_ok (run_accepts_none hfound) (.refl scan)
  | some after => exact .of_run_ok (run_accepts_some hfound) (hstep after hfound)

theorem Treads.accept {expected : Char} (hexpected : isLegible expected = true) :
    Treads (Reader.accept expected) lowest scan := by
  refine Treads.accepts fun after hstep => ?_
  obtain ⟨hpeek, rfl⟩ : scan.peek = some expected ∧ scan.skip 1 = after := by
    simpa [Scan.accept?, Option.ite_none_right_eq_some] using hstep
  exact Scan.reaches_skip_one hpeek hexpected

theorem Treads.hexMark : Treads (Reader.accepts Scan.acceptHexMark?) lowest scan := by
  refine Treads.accepts fun after hstep => ?_
  obtain ⟨hmark, rfl⟩ : scan.hasHexMarkAt 0 = true ∧ scan.skip 2 = after := by
    simpa [Scan.acceptHexMark?, Option.ite_none_right_eq_some] using hstep
  exact Scan.reaches_skip_hexMark hmark

theorem Treads.require {read : Scan → Option (Value × Scan)} (hread : Scan.ReachesBy read scan)
    (cause : ParseError.Cause) {position : Nat} (hlowest : lowest ≤ position)
    (hscan : position ≤ scan.position) :
    Treads (Reader.require read cause position) lowest scan := by
  cases hfound : read scan with
  | none =>
      refine Treads.get_bind ?_
      rw [hfound]
      exact Treads.fail cause hlowest hscan
  | some result => exact .of_run_ok (run_require hfound cause position) (hread _ _ hfound)

/-! ## Items between separators -/

section Separated

variable {item : Reader Value} {separator : Char}

theorem Treads.separatedFrom (hseparator : isLegible separator = true)
    (hitem : ∀ scan : Scan, lowest ≤ scan.position → Treads item lowest scan) (rounds : Nat)
    (hscan : lowest ≤ scan.position) :
    Treads (Reader.separatedFrom item separator rounds) lowest scan := by
  induction rounds generalizing scan with
  | zero => exact (hitem scan hscan).map fun value => [value]
  | succ rounds ih =>
      refine (hitem scan hscan).bind fun value after _ hafter => ?_
      refine (Treads.accept hseparator).bind fun found later _ hlater => ?_
      cases found with
      | false => exact Treads.pure [value]
      | true =>
          have hlowest := (hscan.trans hafter.position_le).trans hlater.position_le
          exact (ih hlowest).map fun others => value :: others

theorem Treads.separated (hseparator : isLegible separator = true)
    (hitem : ∀ scan : Scan, lowest ≤ scan.position → Treads item lowest scan)
    (hscan : lowest ≤ scan.position) :
    Treads (Reader.separated item separator) lowest scan :=
  Treads.get_bind (Treads.separatedFrom hseparator hitem _ hscan)

end Separated

/-- A text that is accepted as a whole is legible. -/
theorem Treads.readAll {reader : Reader Value}
    (hreader : ∀ scan : Scan, Treads reader scan.position scan) {text : String} {value : Value}
    (hread : reader.readAll text = .ok value) : ∀ byte ∈ bytesOf text, IsLegible byte := by
  obtain ⟨last, hrun⟩ := readAll_eq_ok_iff.mp hread
  obtain ⟨taken, htaken, -, hlegible⟩ := (hreader _).ok value _ hrun
  have hwhole : bytesOf text = taken := by simpa [Scan.ofString] using htaken
  rwa [hwhole]

end Reader

end AchievementLogic
