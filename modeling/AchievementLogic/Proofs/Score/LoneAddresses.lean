import AchievementLogic.Memory.Image
import AchievementLogic.Proofs.Number.WordDoubles
import AchievementLogic.Proofs.Score.Printing

/-!
# Formulas of one address

The text of an address alone is both an operand and a formula.  The operand shows what it reads as
its size says, so that the pattern of a float becomes a number; the formula takes every reading as a
whole number.  Doubles keep whole words, so that the two agree wherever no float is read, and on a
float exactly if its number truncates to its own pattern.
-/

namespace AchievementLogic

open Text Reader

/-! ## Texts of one address -/

/-- A place begins with `0x` or with the letter of a float. -/
theorem SpellsPlace.followedBy {bytes : List UInt8} {size : ReadSize} {address : UInt32}
    (hplace : SpellsPlace bytes size address) (rest : List UInt8) :
    FollowedBy ['0', 'f', 'F'] (bytes ++ rest) := by
  have hmarked {mark : List UInt8} (hmark : IsHexMark mark) (more : List UInt8) :
      FollowedBy ['0', 'f', 'F'] (mark ++ more) := by
    rcases hmark with rfl | rfl
    · exact .cons (by decide) _
    · exact .cons (by decide) _
  cases hplace with
  | sized hmark _ _ =>
      rw [List.append_assoc]
      exact hmarked hmark _
  | unsized hmark _ =>
      rw [List.append_assoc]
      exact hmarked hmark _
  | float hopening _ _ =>
      apply FollowedBy.cons
      rcases hopening with hopening | hopening
      · rw [hopening]
        decide
      · rw [hopening]
        decide

/-- An operand that shows its current reading was written as a place. -/
theorem MemoryOperand.spellsPlace_of_readAll {text : String} {operand : MemoryOperand}
    (hread : Operand.read.readAll text = .ok (.memory operand)) (haccess : operand.access = .address) :
    SpellsPlace (bytesOf text) operand.size operand.address := by
  have hspells : Operand.Spells (bytesOf text) (.memory operand) :=
    Consumes.readAll (fun _ => consumes_read) hread rfl
  generalize bytesOf text = bytes at hspells ⊢
  cases hspells with
  | address hplace => exact hplace
  | accessed hletter hplace =>
      cases haccess
      unfold Access.ofLetter? at hletter
      split at hletter <;> cases hletter

/-- A place is read as a clause without a factor. -/
theorem Clause.reads_place {bytes : List UInt8} {size : ReadSize} {address : UInt32}
    (hplace : SpellsPlace bytes size address) (joining : Joining) :
    Reads (Clause.read joining) bytes { joining, address, size } [] := by
  have hoperand : Reads Operand.read bytes (.memory { access := .address, size, address }) [] :=
    (Operand.Spells.address hplace).reads (fun _ hmem => by cases hmem)
  have hstop : Reads (Reader.accept '*') [] false [] := Reads.accept_none (fun _ hmem => by cases hmem)
  have hbody (start : Nat) : Reads (readMarked joining false false start) bytes
      { joining, address, size } [] := by
    rw [← List.append_nil bytes]
    refine hoperand.bind (hstop.bind_nil ?_)
    exact Reads.pure _ []
  rw [Clause.read_eq]
  refine Reads.position_bind fun start => Reads.peek_bind ?_
  rcases (hplace.followedBy []).peek with hpeek | ⟨letter, hletter, hpeek⟩
  · rw [hpeek]
    exact hbody start
  · rw [hpeek]
    simp only [List.mem_cons, List.not_mem_nil, or_false] at hletter
    rcases hletter with rfl | rfl | rfl
    · exact hbody start
    · exact hbody start
    · exact hbody start

namespace Formula

/-- One clause with nothing after it is read as a formula. -/
theorem readAll_of_reads_clause {text : String} {clause : Clause}
    (hfillers : fillers (bytesOf text) = [])
    (hclause : Reads (Clause.read .first) (bytesOf text) clause []) :
    read.readAll text = .ok ⟨[clause]⟩ := by
  have hfrom (rounds : Nat) : Reads (readFrom .first rounds) (bytesOf text) [clause] [] := by
    cases rounds with
    | zero => exact hclause.map fun clause => [clause]
    | succ rounds =>
        have hstop : Reads Joining.read? [] none [] := fun _ => rfl
        rw [← List.append_nil (bytesOf text)]
        refine hclause.bind (hstop.bind_nil ?_)
        exact Reads.pure [clause] []
  exact readAll_of_reads_clauses hfillers (Reads.get_bind fun _ => (hfrom _).map Formula.mk)

theorem readAll_place {text : String} {size : ReadSize} {address : UInt32}
    (hplace : SpellsPlace (bytesOf text) size address) :
    read.readAll text = .ok ⟨[{ joining := .first, address, size }]⟩ := by
  have hhead := hplace.followedBy []
  rw [List.append_nil] at hhead
  have hfillers := fillers_eq_nil hhead (by simp [isFiller])
  have hclause := Clause.reads_place hplace .first
  exact readAll_of_reads_clause hfillers hclause

/-! ## Their values -/

/-- A single clause gives the word that it reads: no rounding happens on the way. -/
theorem value_of_place (frame : Frame) (size : ReadSize) (address : UInt32) :
    Formula.value ⟨[{ joining := .first, address, size }]⟩ frame = size.read frame address := by
  have hclause : Clause.value { joining := .first, address, size } frame =
      (size.read frame address).toFloat * 1.0 := rfl
  rw [value, List.foldl_cons, List.foldl_nil, hclause, Binary64.toFloat_mul_one, Joining.join,
    Binary64.zero_add_toFloat, Binary64.toWord_toFloat]

end Formula

theorem MemoryOperand.value_advance {operand : MemoryOperand} (haccess : operand.access = .address)
    (frame : Frame) :
    (operand.advance frame 0).value = operand.decode (operand.size.read frame operand.address) := by
  obtain ⟨access, size, address, history⟩ := operand
  cases haccess
  simp only [advance, value, History.push, UInt32.add_zero]
  rfl

theorem MemoryOperand.toWord_decode (operand : MemoryOperand) (raw : UInt32) :
    (operand.decode raw).toWord =
      if operand.size.isFloat then Binary64.toWord (operand.size.toFloat raw) else raw := by
  rw [decode]
  split
  · rfl
  · rfl

/-- A text that is read as an operand that shows its current reading is read as a formula, which
gives that reading as a word.  On a frame it agrees with the operand if, and only if, no float is
read there or the number of the float truncates to its own pattern. -/
theorem Formula.value_eq_toWord_value_iff {text : String} {operand : MemoryOperand}
    (hread : Operand.read.readAll text = .ok (.memory operand)) (haccess : operand.access = .address) :
    ∃ formula, read.readAll text = .ok formula ∧ ∀ frame,
      formula.value frame = (operand.advance frame 0).history.current ∧
      (formula.value frame = (operand.advance frame 0).value.toWord ↔
        (operand.size.isFloat = true →
          Binary64.toWord (operand.size.toFloat (operand.advance frame 0).history.current) =
            (operand.advance frame 0).history.current)) := by
  refine ⟨_, readAll_place (MemoryOperand.spellsPlace_of_readAll hread haccess), fun frame => ?_⟩
  have hcurrent : (operand.advance frame 0).history.current =
      operand.size.read frame operand.address := by
    rw [MemoryOperand.advance, UInt32.add_zero]
    rfl
  rw [value_of_place, hcurrent, MemoryOperand.value_advance haccess, MemoryOperand.toWord_decode]
  refine ⟨rfl, ?_⟩
  split
  case isTrue hfloat => simp only [hfloat, forall_const, eq_comm]
  case isFalse hwhole => simp [hwhole]

/-- The operand of the text `"0Xx2"`. -/
def wordAtTwo : MemoryOperand :=
  { access := .address, size := .word .four .little, address := 2 }

/-- Six bytes, the last four of them the largest word. -/
def largestAtTwo : Frame := { source := (Image.ofBytes [0, 0, 255, 255, 255, 255]).source }

theorem Formula.value_eq_toWord_value_wordAtTwo :
    ∃ formula, read.readAll "0Xx2" = .ok formula ∧ formula.value largestAtTwo = 4294967295 ∧
      formula.value largestAtTwo = (wordAtTwo.advance largestAtTwo 0).value.toWord := by
  have hread : Operand.read.readAll "0Xx2" = .ok (.memory wordAtTwo) := rfl
  obtain ⟨formula, hformula, hvalue⟩ := value_eq_toWord_value_iff hread rfl
  obtain ⟨hcurrent, hagrees⟩ := hvalue largestAtTwo
  refine ⟨formula, hformula, hcurrent.trans (by decide +kernel), hagrees.mpr ?_⟩
  intro hfloat
  cases hfloat

/-- The operand of the text `"fF0000"`. -/
def floatAtZero : MemoryOperand :=
  { access := .address, size := .float .single .little, address := 0 }

/-- The pattern of the float one. -/
def oneAtZero : Frame := { source := (Image.ofBytes [0, 0, 128, 63]).source }

/-- A formula takes the pattern of a float as a whole number: where an operand shows one, it gives
1065353216. -/
theorem Formula.not_forall_value_eq_toWord_value :
    ¬ ∀ (text : String) (operand : MemoryOperand) (formula : Formula),
      Operand.read.readAll text = .ok (.memory operand) → operand.access = .address →
        read.readAll text = .ok formula →
          ∀ frame, formula.value frame = (operand.advance frame 0).value.toWord := by
  intro hall
  have hread : Operand.read.readAll "fF0000" = .ok (.memory floatAtZero) := rfl
  have hformula := readAll_place (MemoryOperand.spellsPlace_of_readAll hread rfl)
  have hvalue := hall _ _ _ hread rfl hformula oneAtZero
  rw [value_of_place, MemoryOperand.value_advance rfl, MemoryOperand.toWord_decode] at hvalue
  have hdiffer : floatAtZero.size.read oneAtZero floatAtZero.address ≠
      if floatAtZero.size.isFloat then Binary64.toWord (floatAtZero.size.toFloat
        (floatAtZero.size.read oneAtZero floatAtZero.address))
      else floatAtZero.size.read oneAtZero floatAtZero.address := by
    decide +kernel
  exact hdiffer hvalue

end AchievementLogic
