import AchievementLogic.Proofs.Text.Boundaries

/-!
# Numbers that are cut out of a text

A decimal fraction is read from the piece of the text between its first byte and its last.  Where one
of the two places were inside a character, there would be no such piece, and reading could not go on
in any way.  A *cutting* reader keeps this as an outcome of its own, beside the errors of a wrong
definition; it cuts like a reader if it has that reader's outcomes on every boundary of the text, and
so never this one.
-/

namespace AchievementLogic

open Text

/-- Why reading does not go on. -/
inductive Interruption
  | wrongDefinition (error : ParseError)
  /-- A piece of the text was to begin or to end inside a character. -/
  | insideCharacter

abbrev CuttingReader := EStateM Interruption Scan

variable {Value Result : Type} {text : String} {scan : Scan}

/-- A reader that cuts nothing. -/
def Reader.toCutting (reader : Reader Value) : CuttingReader Value := fun scan =>
  match reader.run scan with
  | .ok value after => .ok value after
  | .error error after => .error (.wrongDefinition error) after

theorem Reader.run_toCutting (reader : Reader Value) (scan : Scan) :
    reader.toCutting.run scan =
      match reader.run scan with
      | .ok value after => .ok value after
      | .error error after => .error (.wrongDefinition error) after := rfl

instance : MonadLift Reader CuttingReader := ⟨Reader.toCutting⟩

namespace CuttingReader

/-- Reads a decimal fraction, which is cut out of the text; where there is none, fails with `cause`
at `position`. -/
def requireFloat (text : String) (cause : ParseError.Cause) (position : Nat) :
    CuttingReader Float := do
  let scan ← get
  match scan.readFloat with
  | some (value, after) =>
    if (cut? text scan.position after.position).isSome then
      set after
      return value
    else throw .insideCharacter
  | none => Reader.fail cause position

/-- The two have the same outcome at a place. -/
def AgreesAt (scan : Scan) (cutting : CuttingReader Value) (reader : Reader Value) : Prop :=
  cutting.run scan = reader.toCutting.run scan

/-- Of two readers in a row the second ones have to agree only where the first ones stop. -/
theorem AgreesAt.bind {cutting : CuttingReader Value} {reader : Reader Value}
    {next : Value → CuttingReader Result} {nextReader : Value → Reader Result}
    (hfirst : AgreesAt scan cutting reader)
    (hnext : ∀ value after, reader.run scan = .ok value after →
      AgreesAt after (next value) (nextReader value)) :
    AgreesAt scan (cutting >>= next) (reader >>= nextReader) := by
  rw [AgreesAt, EStateM.run_bind, hfirst, Reader.run_toCutting, Reader.run_toCutting,
    EStateM.run_bind]
  cases hrun : reader.run scan with
  | ok value after =>
      have hagrees := hnext value after hrun
      rwa [AgreesAt, Reader.run_toCutting] at hagrees
  | error error after => rfl

/-- The cutting reader has the outcomes of the reader wherever it starts on a boundary. -/
def CutsLike (text : String) (cutting : CuttingReader Value) (reader : Reader Value) : Prop :=
  ∀ start : text.Pos, AgreesAt (.ofPos start) cutting reader

theorem CutsLike.lift (reader : Reader Value) : CutsLike text reader.toCutting reader :=
  fun _ => rfl

theorem CutsLike.bind {cutting : CuttingReader Value} {reader : Reader Value}
    {next : Value → CuttingReader Result} {nextReader : Value → Reader Result}
    (hfirst : CutsLike text cutting reader) (hstays : reader.StaysOnBoundaries text)
    (hnext : ∀ value, CutsLike text (next value) (nextReader value)) :
    CutsLike text (cutting >>= next) (reader >>= nextReader) := by
  refine fun start => (hfirst start).bind fun value after hrun => ?_
  obtain ⟨stop, rfl, -⟩ := hstays.ok start value after hrun
  exact hnext value stop

theorem CutsLike.map {cutting : CuttingReader Value} {reader : Reader Value}
    (hcuts : CutsLike text cutting reader) (change : Value → Result) :
    CutsLike text (do return change (← cutting)) (do return change (← reader)) :=
  fun start => (hcuts start).bind fun _ _ _ => rfl

/-! A reader that only looks leaves everything to the next one. -/

theorem AgreesAt.get_bind {next : Scan → CuttingReader Result} {nextReader : Scan → Reader Result}
    (hnext : AgreesAt scan (next scan) (nextReader scan)) :
    AgreesAt scan (get >>= next) (get >>= nextReader) := hnext

theorem CutsLike.position_bind {next : Nat → CuttingReader Result} {nextReader : Nat → Reader Result}
    (hnext : ∀ position, CutsLike text (next position) (nextReader position)) :
    CutsLike text (Reader.position >>= next) (Reader.position >>= nextReader) :=
  fun start => hnext _ start

theorem CutsLike.peek_bind {next : Option Char → CuttingReader Result}
    {nextReader : Option Char → Reader Result}
    (hnext : ∀ letter?, CutsLike text (next letter?) (nextReader letter?)) :
    CutsLike text (Reader.peek >>= next) (Reader.peek >>= nextReader) :=
  fun start => hnext _ start

/-- Behind what is reached from a boundary the two go on alike. -/
theorem CutsLike.modify {step : Scan → Scan} {next : CuttingReader Result}
    {nextReader : Reader Result} (hnext : CutsLike text next nextReader) {start : text.Pos}
    (hreaches : (Scan.ofPos start).Reaches (step (.ofPos start))) :
    AgreesAt (.ofPos start) (do modify step; next) (do modify step; nextReader) := by
  obtain ⟨place, hplace, -⟩ := hreaches.exists_pos
  have hagrees := hnext place
  rw [← hplace] at hagrees
  exact hagrees

/-- A fraction is never cut inside a character. -/
theorem cutsLike_requireFloat (cause : ParseError.Cause) (position : Nat) :
    CutsLike text (requireFloat text cause position)
      (Reader.require Scan.readFloat cause position) := by
  intro start
  cases hread : (Scan.ofPos start).readFloat with
  | none =>
      have hreader : (Reader.require Scan.readFloat cause position).run (.ofPos start) =
          .error ⟨cause, some position⟩ (.ofPos start) := by
        rw [Reader.require, Reader.run_bind_of_ok (EStateM.run_get _), hread]
        rfl
      have hcutting : (requireFloat text cause position).run (.ofPos start) =
          .error (.wrongDefinition ⟨cause, some position⟩) (.ofPos start) := by
        rw [requireFloat, EStateM.run_bind, EStateM.run_get]
        simp only [hread]
        rfl
      rw [AgreesAt, hcutting, Reader.run_toCutting, hreader]
  | some result =>
      obtain ⟨value, after⟩ := result
      obtain ⟨stop, rfl, hle, -⟩ := (Scan.reachesBy_readFloat _ value after hread).exists_pos
      have hcutting : (requireFloat text cause position).run (.ofPos start) =
          .ok value (.ofPos stop) := by
        rw [requireFloat, EStateM.run_bind, EStateM.run_get]
        have hcut : cut? text (Scan.ofPos start).position (Scan.ofPos stop).position =
            some (text.extract start stop) := cut?_eq_some hle
        simp only [hread, hcut, Option.isSome_some, if_true]
        rfl
      rw [AgreesAt, hcutting, Reader.run_toCutting, Reader.run_require hread]

/-! ## Items between separators -/

section Separated

/-- Items with one separator between two of them, `rounds` further ones at the most. -/
def separatedFrom (item : CuttingReader Value) (separator : Char) :
    Nat → CuttingReader (List Value)
  | 0 => return [← item]
  | rounds + 1 => do
    let first ← item
    if ← Reader.accept separator then
      return first :: (← separatedFrom item separator rounds)
    else
      return [first]

def separated (item : CuttingReader Value) (separator : Char) : CuttingReader (List Value) := do
  separatedFrom item separator (← get).remaining.length

variable {item : CuttingReader Value} {reader : Reader Value} {separator : Char}
variable (hitem : CutsLike text item reader) (hstays : reader.StaysOnBoundaries text)
variable (hseparator : isLegible separator = true)

include hitem hstays hseparator

theorem CutsLike.separatedFrom (rounds : Nat) :
    CutsLike text (separatedFrom item separator rounds)
      (Reader.separatedFrom reader separator rounds) := by
  induction rounds with
  | zero => exact hitem.map fun value => [value]
  | succ rounds ih =>
      refine hitem.bind hstays fun value => ?_
      have haccept : (Reader.accept separator).StaysOnBoundaries text :=
        Reader.staysOnBoundaries_accept hseparator
      refine (CutsLike.lift (Reader.accept separator)).bind haccept fun found => ?_
      cases found with
      | false => exact CutsLike.lift (pure [value])
      | true => exact ih.map fun others => value :: others

theorem CutsLike.separated :
    CutsLike text (separated item separator) (Reader.separated reader separator) :=
  fun start => CutsLike.separatedFrom hitem hstays hseparator _ start

end Separated

/-- A reader and the one that cuts its numbers out of the text: from every boundary the reader comes
to a boundary, and the cutting one has the same outcome, so that it is never inside a character. -/
structure KeepsToBoundaries (text : String) (cutting : CuttingReader Value)
    (reader : Reader Value) : Prop where
  stays : reader.StaysOnBoundaries text
  cuts : CutsLike text cutting reader
  never_inside : ∀ (start : text.Pos) after,
    cutting.run (.ofPos start) ≠ .error .insideCharacter after

theorem CutsLike.keepsToBoundaries {cutting : CuttingReader Value} {reader : Reader Value}
    (hcuts : CutsLike text cutting reader) (hstays : reader.StaysOnBoundaries text) :
    KeepsToBoundaries text cutting reader where
  stays := hstays
  cuts := hcuts
  never_inside start after := by
    rw [hcuts start, Reader.run_toCutting]
    cases reader.run (.ofPos start) with
    | ok value last => exact fun hrun => by cases hrun
    | error error last => exact fun hrun => by cases hrun

end CuttingReader

end AchievementLogic
