import AchievementLogic.Proofs.Text.Cutting
import AchievementLogic.Proofs.Trigger.Alphabet

/-!
# Literals that are cut out of a trigger

Of all that a trigger is made of, only the float literals are cut out of the text.  The readers here
are those of operands, conditions, groups and triggers, but for that; on the boundaries of a text
they are those readers.
-/

namespace AchievementLogic

open Text CuttingReader

variable {text : String}

/-! ## Operands -/

namespace Operand

theorem staysOnBoundaries_read : read.StaysOnBoundaries text :=
  Reader.Treads.staysOnBoundaries fun _ => treads_read (Nat.le_refl _)

/-- Whether a float literal comes next, and no float in memory. -/
def isLiteralNext (scan : Scan) : Bool :=
  isFloatLetter scan.peek && !((scan.peekAt 1).bind ReadSize.ofFloatLetter?).isSome

/-- Reads one operand.  The number of a float literal is cut out of the text. -/
def readCutting (text : String) : CuttingReader Operand := do
  let scan ← get
  if isLiteralNext scan then
    Reader.skip 1
    return float (← requireFloat text .noFloatNumber scan.position)
  else
    read

/-- A float literal is read as its letter and then its number. -/
theorem run_read_of_isLiteralNext {scan : Scan} (hliteral : isLiteralNext scan = true) :
    read.run scan = (do
      Reader.skip 1
      return float (← Reader.require Scan.readFloat .noFloatNumber scan.position)).run scan := by
  simp only [isLiteralNext, isFloatLetter, Bool.and_eq_true, Bool.or_eq_true, decide_eq_true_eq,
    Bool.not_eq_true'] at hliteral
  obtain ⟨hletter, hsize⟩ := hliteral
  rw [read, Reader.run_bind_of_ok (EStateM.run_get scan)]
  rcases hletter with hpeek | hpeek
  all_goals
    rw [hpeek]
    simp only [hsize, Bool.false_eq_true, if_false]

/-- The digits of a float literal begin and end on boundaries, so that its number can be cut out. -/
theorem cutsLike_literal {start : text.Pos} (hliteral : isLiteralNext (.ofPos start) = true)
    (position : Nat) :
    AgreesAt (.ofPos start)
      (do
        Reader.skip 1
        return float (← requireFloat text .noFloatNumber position))
      (do
        Reader.skip 1
        return float (← Reader.require Scan.readFloat .noFloatNumber position)) := by
  have hfloat := (Bool.and_eq_true_iff.mp hliteral).1
  obtain ⟨letter, hpeek, hletter⟩ := isLegible_of_isFloatLetter hfloat
  have hnumber : CutsLike text (requireFloat text .noFloatNumber position) _ :=
    cutsLike_requireFloat .noFloatNumber position
  exact (hnumber.map float).modify (Scan.reaches_skip_one hpeek hletter)

theorem cutsLike_read : CutsLike text (readCutting text) read := by
  intro start
  rw [AgreesAt, readCutting, EStateM.run_bind, EStateM.run_get]
  cases hliteral : isLiteralNext (.ofPos start) with
  | false =>
      simp only [hliteral, Bool.false_eq_true, if_false]
      rfl
  | true =>
      simp only [hliteral, if_true]
      rw [Reader.run_toCutting, run_read_of_isLiteralNext hliteral, ← Reader.run_toCutting]
      exact cutsLike_literal hliteral _

end Operand

/-! ## Conditions -/

theorem Role.staysOnBoundaries_read : read.StaysOnBoundaries text :=
  Reader.Treads.staysOnBoundaries fun _ => treads_read (Nat.le_refl _)

theorem Comparison.staysOnBoundaries_read? : read?.StaysOnBoundaries text :=
  Reader.Treads.staysOnBoundaries fun _ => treads_read?

namespace Condition

theorem staysOnBoundaries_read : read.StaysOnBoundaries text :=
  Reader.Treads.staysOnBoundaries fun _ => treads_read (Nat.le_refl _)

def readCutting (text : String) : CuttingReader Condition := do
  let role ← Role.read
  let source ← Operand.readCutting text
  let place ← Reader.position
  match ← Comparison.read? with
  | some comparison =>
    let target ← Operand.readCutting text
    return { role, source, comparison? := some comparison, target, requiredHits := ← readHits }
  | none =>
    if role.isModifier then
      return { role, source, comparison? := none, target := default, requiredHits := ← readHits }
    else
      Reader.fail .noComparison place

theorem cutsLike_read : CutsLike text (readCutting text) read := by
  refine (CutsLike.lift Role.read).bind Role.staysOnBoundaries_read fun role => ?_
  refine Operand.cutsLike_read.bind Operand.staysOnBoundaries_read fun source => ?_
  refine CutsLike.position_bind fun place => ?_
  refine (CutsLike.lift Comparison.read?).bind Comparison.staysOnBoundaries_read? fun found => ?_
  cases found with
  | some comparison =>
      refine Operand.cutsLike_read.bind Operand.staysOnBoundaries_read fun target => ?_
      exact (CutsLike.lift readHits).map _
  | none =>
      simp only
      split
      · exact (CutsLike.lift readHits).map _
      · exact CutsLike.lift (Reader.fail .noComparison place)

end Condition

/-! ## Groups and triggers -/

namespace Group

theorem staysOnBoundaries_read : read.StaysOnBoundaries text :=
  Reader.Treads.staysOnBoundaries fun _ => treads_read (Nat.le_refl _)

def readCutting (text : String) : CuttingReader Group := do
  match ← Reader.peek with
  | none | some 'S' | some ':' => return ⟨[]⟩
  | _ => return ⟨← separated (Condition.readCutting text) '_'⟩

theorem cutsLike_read : CutsLike text (readCutting text) read := by
  refine CutsLike.peek_bind fun letter? => ?_
  have hconditions : CutsLike text (separated (Condition.readCutting text) '_')
      (Reader.separated Condition.read '_') :=
    .separated Condition.cutsLike_read Condition.staysOnBoundaries_read (by decide)
  by_cases hend : letter? = none ∨ letter? = some 'S' ∨ letter? = some ':'
  · rcases hend with rfl | rfl | rfl <;> exact CutsLike.lift (pure (Group.mk []))
  · -- By what the letter is not, both readers take their last case.
    obtain ⟨hnone, hmark, hcolon⟩ := by simpa only [not_or] using hend
    simp only
    exact hconditions.map Group.mk

end Group

namespace Trigger

theorem staysOnBoundaries_read : read.StaysOnBoundaries text :=
  Reader.Treads.staysOnBoundaries fun _ => treads_read (Nat.le_refl _)

def readCutting (text : String) : CuttingReader Trigger := do
  return ofGroups (← separated (Group.readCutting text) 'S')

theorem cutsLike_read : CutsLike text (readCutting text) read := by
  have hgroups : CutsLike text (separated (Group.readCutting text) 'S')
      (Reader.separated Group.read 'S') :=
    .separated Group.cutsLike_read Group.staysOnBoundaries_read (by decide)
  exact hgroups.map ofGroups

end Trigger

end AchievementLogic
