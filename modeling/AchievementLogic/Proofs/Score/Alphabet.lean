import AchievementLogic.Proofs.Trigger.Alphabet
import AchievementLogic.Score.Formula

/-!
# The letters of formulas

The readers of clauses and formulas tread on legible letters only: the marks of a clause, of a
factor and between two clauses, and the fillers before a formula.
-/

namespace AchievementLogic

open Text Reader

variable {scan : Scan} {lowest start : Nat}

/-! ## The parts of a clause -/

namespace Clause

/-- Reads what a clause is multiplied by, if there is anything. -/
def readProduct (clause : Clause) : Reader Clause := do
  if ← Reader.accept '*' then
    let invertBit ← Reader.accept '~'
    return { clause with invertBit, factor := ← readFactor }
  else
    return clause

def readMarked (joining : Joining) (bcd marked : Bool) (start : Nat) : Reader Clause := do
  match ← Operand.read with
  | .memory { access := .address, size, address, .. } =>
    readProduct { joining, address, size, literal := marked, bcd }
  | .word value => readProduct { joining, address := value, size := .byte, literal := true, bcd }
  | _ => Reader.fail .unsupportedOperand start

/-- Whether the letter before an operand marks a clause of decimal digits, or a number. -/
def isMark (letter? : Option Char) : Bool :=
  letter? = some 'B' || letter? = some 'b' || (letter? = some 'V' || letter? = some 'v')

theorem read_eq (joining : Joining) :
    read joining = (do
      let start ← Reader.position
      let letter? ← Reader.peek
      let body := readMarked joining (letter? = some 'B' || letter? = some 'b')
        (letter? = some 'V' || letter? = some 'v') start
      if isMark letter? then do
        Reader.skip 1
        body
      else body) := rfl

theorem treads_readFactor (hlowest : lowest ≤ scan.position) : Treads readFactor lowest scan := by
  refine Treads.get_bind ?_
  split
  case isTrue =>
    refine (Operand.treads_read hlowest).bind fun operand after _ hafter => ?_
    split
    · exact Treads.pure _
    · exact Treads.fail .noSecondAddress hlowest hafter.position_le
  case isFalse =>
    have hnumber := Scan.reachesBy_readFloat scan
    exact (Treads.require hnumber .noMultiplier hlowest (Nat.le_refl _)).map Factor.number

theorem treads_readProduct (clause : Clause) (hlowest : lowest ≤ scan.position) :
    Treads (readProduct clause) lowest scan := by
  refine (Treads.accept (by decide)).bind fun found after _ hafter => ?_
  cases found with
  | false => exact Treads.pure clause
  | true =>
      refine (Treads.accept (by decide)).bind fun inverted later _ hlater => ?_
      have hstop := (hlowest.trans hafter.position_le).trans hlater.position_le
      exact (treads_readFactor hstop).map _

theorem treads_readMarked (joining : Joining) (bcd marked : Bool) (hlowest : lowest ≤ start)
    (hstart : start ≤ scan.position) :
    Treads (readMarked joining bcd marked start) lowest scan := by
  refine (Operand.treads_read (hlowest.trans hstart)).bind fun operand after _ hafter => ?_
  have hlater := hstart.trans hafter.position_le
  split
  · exact treads_readProduct _ (hlowest.trans hlater)
  · exact treads_readProduct _ (hlowest.trans hlater)
  · exact Treads.fail .unsupportedOperand hlowest hlater

theorem isLegible_of_isMark {letter? : Option Char} (hmark : isMark letter? = true) :
    ∃ letter, letter? = some letter ∧ isLegible letter = true := by
  simp only [isMark, Bool.or_eq_true, decide_eq_true_eq] at hmark
  obtain (rfl | rfl) | rfl | rfl := hmark
  all_goals exact ⟨_, rfl, by decide⟩

theorem treads_read (joining : Joining) (hlowest : lowest ≤ scan.position) :
    Treads (read joining) lowest scan := by
  rw [read_eq]
  refine Treads.position_bind (Treads.peek_bind ?_)
  split
  case isTrue hmark =>
    obtain ⟨letter, hpeek, hletter⟩ := isLegible_of_isMark hmark
    have hskip := Scan.reaches_skip_one hpeek hletter
    exact Treads.skip_one hpeek hletter (treads_readMarked joining _ _ hlowest hskip.position_le)
  case isFalse => exact treads_readMarked joining _ _ hlowest (Nat.le_refl _)

end Clause

/-! ## Formulas -/

theorem Joining.treads_read? : Treads read? lowest scan := by
  refine (Treads.accept (by decide)).bind fun added after _ _ => ?_
  cases added with
  | true => exact Treads.pure _
  | false =>
      refine (Treads.accept (by decide)).bind fun larger later _ _ => ?_
      cases larger with
      | true => exact Treads.pure _
      | false => exact Treads.pure _

namespace Formula

theorem treads_readFrom (joining : Joining) (rounds : Nat) (hlowest : lowest ≤ scan.position) :
    Treads (readFrom joining rounds) lowest scan := by
  induction rounds generalizing scan joining with
  | zero => exact (Clause.treads_read joining hlowest).map fun clause => [clause]
  | succ rounds ih =>
      refine (Clause.treads_read joining hlowest).bind fun clause after _ hafter => ?_
      refine Joining.treads_read?.bind fun next? later _ hlater => ?_
      have hstop := (hlowest.trans hafter.position_le).trans hlater.position_le
      cases next? with
      | none => exact Treads.pure [clause]
      | some next => exact (ih next hstop).map fun others => clause :: others

def fillers (bytes : List UInt8) : List UInt8 :=
  bytes.takeWhile fun byte => isFiller (Char.ofUInt8 byte)

theorem fillers_prefix_self (bytes : List UInt8) : fillers bytes <+: bytes := List.takeWhile_prefix _

theorem isLegible_of_mem_fillers {bytes : List UInt8} :
    ∀ byte ∈ fillers bytes, IsLegible byte := by
  intro byte hmem
  have hfiller : isFiller (Char.ofUInt8 byte) = true :=
    List.all_eq_true.mp List.all_takeWhile byte hmem
  simp only [isFiller, Bool.or_eq_true, decide_eq_true_eq] at hfiller
  obtain ((hbyte | hbyte) | hbyte) | hbyte := hfiller
  all_goals exact by rw [IsLegible, hbyte]; decide

theorem reaches_skip_fillers (scan : Scan) :
    scan.Reaches (scan.skip (fillers scan.remaining).length) := by
  obtain ⟨remaining, position⟩ := scan
  obtain ⟨rest, hrest⟩ := fillers_prefix_self remaining
  have hlegible : ∀ byte ∈ fillers remaining, IsLegible byte := isLegible_of_mem_fillers
  have hreaches : Scan.Reaches ⟨fillers remaining ++ rest, position⟩
      (Scan.skip ⟨fillers remaining ++ rest, position⟩ (fillers remaining).length) :=
    Scan.reaches_skip_append hlegible position
  rwa [hrest] at hreaches

def readClauses : Reader Formula := do
  return ⟨← readFrom .first (← get).remaining.length⟩

theorem run_read (scan : Scan) :
    read.run scan = readClauses.run (scan.skip (fillers scan.remaining).length) := rfl

theorem treads_readClauses (hlowest : lowest ≤ scan.position) :
    Treads readClauses lowest scan :=
  Treads.get_bind ((treads_readFrom .first _ hlowest).map Formula.mk)

theorem treads_read (hlowest : lowest ≤ scan.position) : Treads read lowest scan := by
  have hskip := reaches_skip_fillers scan
  have hmove : (modify fun place => place.skip (fillers place.remaining).length : Reader PUnit).run
      scan = .ok ⟨⟩ (scan.skip (fillers scan.remaining).length) := rfl
  refine (Treads.of_run_ok hmove hskip).bind ?_
  intro value after hrun _
  cases hrun
  exact treads_readClauses (hlowest.trans hskip.position_le)

/-- A text that is read as a formula is legible. -/
theorem isLegible_of_readAll {text : String} {formula : Formula}
    (hread : read.readAll text = .ok formula) : ∀ byte ∈ bytesOf text, IsLegible byte :=
  Treads.readAll (fun _ => treads_read (Nat.le_refl _)) hread

end Formula

end AchievementLogic
