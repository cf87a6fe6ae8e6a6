import AchievementLogic.Proofs.Score.Alphabet
import AchievementLogic.Proofs.Trigger.CutLiterals

/-!
# Factors that are cut out of a formula

The numbers that clauses are multiplied by are cut out of the text as float literals are.  A float
literal itself is no operand of a clause, but it is read before that is seen.
-/

namespace AchievementLogic

open Text CuttingReader

variable {text : String}

/-! ## Clauses -/

namespace Clause

theorem staysOnBoundaries_read (joining : Joining) : (read joining).StaysOnBoundaries text :=
  Reader.Treads.staysOnBoundaries fun _ => treads_read joining (Nat.le_refl _)

def readFactorCutting (text : String) : CuttingReader Factor := do
  let scan ← get
  if scan.hasHexMarkAt 0 then
    match ← Operand.readCutting text with
    | .memory { access := .address, size, address, .. } => return .memory address size
    | _ => Reader.fail .noSecondAddress scan.position
  else
    return .number (← requireFloat text .noMultiplier scan.position)

def readProductCutting (text : String) (clause : Clause) : CuttingReader Clause := do
  if ← Reader.accept '*' then
    let invertBit ← Reader.accept '~'
    return { clause with invertBit, factor := ← readFactorCutting text }
  else
    return clause

def readMarkedCutting (text : String) (joining : Joining) (bcd marked : Bool) (start : Nat) :
    CuttingReader Clause := do
  match ← Operand.readCutting text with
  | .memory { access := .address, size, address, .. } =>
    readProductCutting text { joining, address, size, literal := marked, bcd }
  | .word value =>
    readProductCutting text { joining, address := value, size := .byte, literal := true, bcd }
  | _ => Reader.fail .unsupportedOperand start

/-- Reads one clause.  The numbers in it are cut out of the text. -/
def readCutting (text : String) (joining : Joining) : CuttingReader Clause := do
  let start ← Reader.position
  let letter? ← Reader.peek
  let body := readMarkedCutting text joining (letter? = some 'B' || letter? = some 'b')
    (letter? = some 'V' || letter? = some 'v') start
  if isMark letter? then
    Reader.skip 1
    body
  else
    body

theorem cutsLike_readFactor : CutsLike text (readFactorCutting text) readFactor := by
  refine fun start => AgreesAt.get_bind ?_
  split
  case isTrue =>
    refine (Operand.cutsLike_read start).bind fun operand after _ => ?_
    rcases operand with ⟨access, size, address, history⟩ | word | number
    · cases access <;> rfl
    · rfl
    · rfl
  case isFalse => exact (cutsLike_requireFloat .noMultiplier _).map Factor.number start

theorem cutsLike_readProduct (clause : Clause) :
    CutsLike text (readProductCutting text clause) (readProduct clause) := by
  refine (CutsLike.lift (Reader.accept '*')).bind
    (Reader.staysOnBoundaries_accept (by decide)) fun found => ?_
  cases found with
  | false => exact CutsLike.lift (pure clause)
  | true =>
      refine (CutsLike.lift (Reader.accept '~')).bind
        (Reader.staysOnBoundaries_accept (by decide)) fun inverted => ?_
      exact cutsLike_readFactor.map _

theorem cutsLike_readMarked (joining : Joining) (bcd marked : Bool) (start : Nat) :
    CutsLike text (readMarkedCutting text joining bcd marked start)
      (readMarked joining bcd marked start) := by
  refine Operand.cutsLike_read.bind Operand.staysOnBoundaries_read fun operand => ?_
  rcases operand with ⟨access, size, address, history⟩ | word | number
  · cases access with
    | address => exact cutsLike_readProduct _
    | delta | prior | bcd | inverted => exact CutsLike.lift (Reader.fail .unsupportedOperand start)
  · exact cutsLike_readProduct _
  · exact CutsLike.lift (Reader.fail .unsupportedOperand start)

theorem cutsLike_read (joining : Joining) :
    CutsLike text (readCutting text joining) (read joining) := by
  rw [read_eq]
  refine fun start => AgreesAt.get_bind (AgreesAt.get_bind ?_)
  split
  case isTrue hmark =>
    obtain ⟨letter, hpeek, hletter⟩ := isLegible_of_isMark hmark
    exact (cutsLike_readMarked joining _ _ _).modify (Scan.reaches_skip_one hpeek hletter)
  case isFalse => exact cutsLike_readMarked joining _ _ _ start

end Clause

/-! ## Formulas -/

namespace Formula

def readFromCutting (text : String) (joining : Joining) : Nat → CuttingReader (List Clause)
  | 0 => return [← Clause.readCutting text joining]
  | rounds + 1 => do
    let first ← Clause.readCutting text joining
    match ← Joining.read? with
    | some next => return first :: (← readFromCutting text next rounds)
    | none => return [first]

def readClausesCutting (text : String) : CuttingReader Formula := do
  return ⟨← readFromCutting text .first (← get).remaining.length⟩

/-- Reads a formula.  The numbers in it are cut out of the text. -/
def readCutting (text : String) : CuttingReader Formula := do
  modify fun scan => scan.skip (fillers scan.remaining).length
  readClausesCutting text

theorem staysOnBoundaries_read : read.StaysOnBoundaries text :=
  Reader.Treads.staysOnBoundaries fun _ => treads_read (Nat.le_refl _)

theorem cutsLike_readFrom (joining : Joining) (rounds : Nat) :
    CutsLike text (readFromCutting text joining rounds) (readFrom joining rounds) := by
  induction rounds generalizing joining with
  | zero => exact (Clause.cutsLike_read joining).map fun clause => [clause]
  | succ rounds ih =>
      refine (Clause.cutsLike_read joining).bind (Clause.staysOnBoundaries_read joining) ?_
      intro clause
      have hjoining : Joining.read?.StaysOnBoundaries text :=
        Reader.Treads.staysOnBoundaries fun _ => Joining.treads_read?
      refine (CutsLike.lift Joining.read?).bind hjoining fun next? => ?_
      cases next? with
      | none => exact CutsLike.lift (pure [clause])
      | some next => exact (ih next).map fun others => clause :: others

theorem cutsLike_readClauses : CutsLike text (readClausesCutting text) readClauses :=
  fun start => (cutsLike_readFrom .first _).map Formula.mk start

theorem cutsLike_read : CutsLike text (readCutting text) read :=
  fun start => cutsLike_readClauses.modify (reaches_skip_fillers (.ofPos start))

end Formula

end AchievementLogic
