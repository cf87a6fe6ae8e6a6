import AchievementLogic.Proofs.Score.InPlace
import AchievementLogic.Proofs.Trigger.Derivations

/-!
# Formulas read again from their text

What is written of a formula is read again and then written the same way, although some of what a
clause was read with is gone: a literal has no size and no decimal digits in its text, and nothing
is said about turning over a factor that is a number.  Numbers as factors are left out.
-/

namespace AchievementLogic

open Text Reader

variable {rest : List UInt8} {scan : Scan}

/-! ## What is read from a text -/

theorem ReadSize.isFloat_of_ofLetter? {letter : Char} {size : ReadSize}
    (hsize : ofLetter? letter = some size) : size.isFloat = false := by
  unfold ofLetter? at hsize
  split at hsize <;> cases hsize <;> rfl

/-- What is read at a `0x` takes no float from memory. -/
theorem Operand.isFloat_of_hasHexMarkAt {size : ReadSize} {address : UInt32} {after : Scan}
    (hmark : scan.hasHexMarkAt 0 = true)
    (hrun : Operand.read.run scan = .ok (.memory { access := .address, size, address }) after) :
    size.isFloat = false := by
  obtain ⟨bytes, hbytes, hspells⟩ := consumes_read _ _ hrun
  cases hspells rfl with
  | accessed haccess hplace =>
      unfold Access.ofLetter? at haccess
      split at haccess <;> cases haccess
  | address hplace =>
      cases hplace with
      | sized _ hsize _ => exact ReadSize.isFloat_of_ofLetter? hsize
      | unsized _ _ => rfl
      | float hopening _ _ =>
          obtain ⟨remaining, position⟩ := scan
          obtain rfl := hbytes
          simp only [Scan.hasHexMarkAt, Scan.peekAt_zero, List.cons_append, Scan.peek_cons,
            Bool.and_eq_true, decide_eq_true_eq, Option.some.injEq] at hmark
          rw [hmark.1] at hopening
          rcases hopening with hopening | hopening
          · cases hopening
          · cases hopening

/-- A factor in memory is found by its `0x`. -/
def Factor.IsRead (factor : Factor) : Prop :=
  ∀ address size, factor = .memory address size → size.isFloat = false

/-- A factor in memory is read only where a `0x` comes next, and the sizes behind a `0x` are those
of whole numbers. -/
theorem Clause.ensures_readFactor : Ensures readFactor Factor.IsRead := by
  intro scan factor after hrun
  rw [readFactor, run_bind_of_ok (EStateM.run_get _)] at hrun
  split at hrun
  case isTrue hmark =>
    cases hoperand : Operand.read.run scan with
    | error error between =>
        rw [EStateM.run_bind, hoperand] at hrun
        cases hrun
    | ok operand between =>
        rw [run_bind_of_ok hoperand] at hrun
        have hfresh := Operand.ensures_read _ _ _ hoperand
        split at hrun
        · rename_i size address history
          cases hrun
          obtain rfl : {} = history := by
            simpa [Operand.fresh] using hfresh
          intro other otherSize hsame
          cases hsame
          exact Operand.isFloat_of_hasHexMarkAt hmark hoperand
        · cases hrun
  case isFalse =>
    have hnumber : Ensures (do return Factor.number (← Reader.require Scan.readFloat .noMultiplier
        scan.position)) Factor.IsRead :=
      .of_next fun value => .pure fun _ _ hsame => by cases hsame
    exact hnumber _ _ _ hrun

/-- A clause as it is read after a joining. -/
structure Clause.IsRead (joining : Joining) (clause : Clause) : Prop where
  joining : clause.joining = joining
  factor : clause.factor.IsRead

theorem Clause.ensures_readProduct {joining : Joining} {clause : Clause}
    (hread : clause.IsRead joining) : Ensures (readProduct clause) (IsRead joining) := by
  refine .of_next fun found => ?_
  cases found with
  | false => exact .pure hread
  | true =>
      refine .of_next fun invertBit => ensures_readFactor.bind fun factor hfactor => ?_
      exact .pure ⟨hread.joining, hfactor⟩

theorem Clause.ensures_read (joining : Joining) : Ensures (read joining) (IsRead joining) := by
  have hnumber : Factor.IsRead (.number 1.0) := by
    intro address size hsame
    cases hsame
  have hmarked (bcd marked : Bool) (start : Nat) :
      Ensures (readMarked joining bcd marked start) (IsRead joining) := by
    refine .of_next fun operand => ?_
    split
    · exact ensures_readProduct ⟨rfl, hnumber⟩
    · exact ensures_readProduct ⟨rfl, hnumber⟩
    · exact .fail _ _ _
  rw [read_eq]
  refine .of_next fun start => .of_next fun letter? => ?_
  simp only
  split
  · exact .of_next fun _ => hmarked _ _ start
  · exact hmarked _ _ start

namespace Formula

/-- Clauses as they are read after a joining, and every further one after its mark. -/
inductive AreRead : Joining → List Clause → Prop
  | single {joining : Joining} {clause : Clause} (hread : clause.IsRead joining) :
      AreRead joining [clause]
  | cons {joining next : Joining} {clause : Clause} {later : List Clause}
      (hread : clause.IsRead joining) (hnext : next ≠ .first) (hlater : AreRead next later) :
      AreRead joining (clause :: later)

def IsRead (formula : Formula) : Prop := AreRead .first formula.clauses

theorem ensures_readFrom (joining : Joining) (rounds : Nat) :
    Ensures (readFrom joining rounds) (AreRead joining) := by
  induction rounds generalizing joining with
  | zero =>
      exact (Clause.ensures_read joining).bind fun clause hclause => .pure (.single hclause)
  | succ rounds ih =>
      have hmark : Ensures Joining.read? fun next? => next? ≠ some .first := by
        intro scan next? after hrun
        rw [Joining.run_read?] at hrun
        split at hrun
        · cases hrun
          decide
        · split at hrun
          · cases hrun
            decide
          · cases hrun
            decide
      refine (Clause.ensures_read joining).bind fun clause hclause => ?_
      refine hmark.bind fun next? hnext => ?_
      cases next? with
      | none => exact .pure (.single hclause)
      | some next =>
          refine (ih next).bind fun later hlater => .pure ?_
          exact .cons hclause (fun hfirst => hnext (congrArg some hfirst)) hlater

theorem ensures_read : Ensures read IsRead := by
  have hclauses : Ensures readClauses IsRead :=
    .of_next fun scan => (ensures_readFrom .first _).bind fun clauses hclauses => .pure hclauses
  intro scan formula after hrun
  rw [run_read] at hrun
  exact hclauses _ _ _ hrun

end Formula

/-! ## The text of a clause -/

/-- The two's complement of a magnitude that fits. -/
theorem negated_clampedWord {word : UInt32} {count : Nat} (hword : word.toNat + count = 2 ^ 32)
    (hcount : count ≤ 2 ^ 31) : 0 - min (clampedWord count) 0x80000000 = word := by
  have hclamped : (clampedWord count).toNat = count := by
    have hfits : min count (2 ^ 32 - 1) = count := by omega
    rw [clampedWord, hfits, UInt32.toNat_ofNat_of_lt']
    exact Nat.lt_of_le_of_lt hcount (by decide)
  have hmin : min (clampedWord count) 0x80000000 = clampedWord count := by
    apply if_pos
    rw [UInt32.le_iff_toNat_le, hclamped]
    exact hcount
  have hlt := word.toNat_lt
  rw [hmin, ← UInt32.toNat_inj, UInt32.toNat_sub, hclamped, UInt32.toNat_zero]
  omega

/-- A signed number spells its word. -/
theorem Operand.spells_signed (word : UInt32) :
    Operand.Spells (bytesOf (toString (Format.signed word))) (.word word) := by
  have hsigned : Format.signed word = word.toBitVec.toInt := rfl
  have hlt := word.toNat_lt
  rw [hsigned, BitVec.toInt_eq_toNat_cond, UInt32.toNat_toBitVec]
  split
  case isTrue hsmall => exact .plain (spellsWord_toString word)
  case isFalse hlarge =>
    obtain ⟨below, hbelow⟩ : ∃ below, word.toNat + (below + 1) = 2 ^ 32 :=
      ⟨2 ^ 32 - word.toNat - 1, by omega⟩
    have hnegative : (word.toNat : Int) - (2 ^ 32 : Nat) = Int.negSucc below := by omega
    have hminus := Operand.Spells.minus (spellsWord_toString_nat (below + 1))
    rw [negated_clampedWord hbelow (by omega)] at hminus
    have htext : toString (Int.negSucc below) = "-" ++ toString (below + 1) := rfl
    rw [hnegative, htext, bytesOf_append]
    exact hminus

/-- The text of an address begins with `0x`, or with the letter of a float. -/
theorem Operand.bytesOf_addressText (size : ReadSize) (address : UInt32) :
    (∃ more, bytesOf (addressText size address) = bytesOf "0x" ++ more) ∨
      size.isFloat = true ∧ ∃ more, bytesOf (addressText size address) = 'f'.toUInt8 :: more := by
  rw [addressText, bytesOf_append]
  rcases size.bytesOf_mark with ⟨letter, hmark, hsize⟩ | ⟨letter, hmark, hsize⟩
  · rw [hmark, List.append_assoc]
    exact .inl ⟨_, rfl⟩
  · have hfloat : size.isFloat = true := by
      unfold ReadSize.ofFloatLetter? at hsize
      split at hsize <;> cases hsize <;> rfl
    rw [hmark]
    exact .inr ⟨hfloat, _, rfl⟩

theorem Operand.followedBy_addressText (size : ReadSize) (address : UInt32) (rest : List UInt8) :
    FollowedBy ['0', 'f'] (bytesOf (addressText size address) ++ rest) := by
  intro byte hmem
  rcases bytesOf_addressText size address with ⟨more, hbytes⟩ | ⟨-, more, hbytes⟩
  · rw [hbytes] at hmem
    cases hmem
    decide
  · rw [hbytes] at hmem
    cases hmem
    decide

/-- A further clause or nothing comes next. -/
abbrev EndsClause (rest : List UInt8) : Prop := FollowedBy ['_', '$'] rest

theorem EndsClause.endsOperand (hrest : EndsClause rest) : EndsOperand rest :=
  FollowedBy.endsOperand hrest (by simp [digitValue?])

namespace Clause

/-- What a clause is once it is read again. -/
def reread (clause : Clause) : Clause :=
  { clause with
    size := if clause.literal then .byte else clause.size
    bcd := !clause.literal && clause.bcd
    invertBit := clause.factor.memory?.isSome && clause.invertBit }

theorem text_reread (clause : Clause) : clause.reread.text = clause.text := by
  obtain ⟨joining, address, size, literal, bcd, factor, invertBit⟩ := clause
  cases factor with
  | memory place width => cases literal <;> rfl
  | number value => cases literal <;> rfl

/-- The clause without a factor. -/
def bare (clause : Clause) : Clause := { clause with factor := .number 1.0, invertBit := false }

theorem reads_readFactor {size : ReadSize} (hsize : size.isFloat = false) (hrest : EndsClause rest)
    (address : UInt32) :
    Reads readFactor (bytesOf (Operand.addressText size address)) (.memory address size) rest := by
  have hoperand := (Operand.Spells.address (spellsPlace_addressText size address)).reads
    hrest.endsOperand
  refine Reads.get_bind fun position => ?_
  have hmark : Scan.hasHexMarkAt
      ⟨bytesOf (Operand.addressText size address) ++ rest, position⟩ 0 = true := by
    rcases Operand.bytesOf_addressText size address with ⟨more, hbytes⟩ | ⟨hfloat, -⟩
    · rw [hbytes]
      rfl
    · rw [hsize] at hfloat
      cases hfloat
  rw [if_pos hmark, ← List.append_nil (bytesOf _)]
  exact hoperand.bind (Reads.pure _ rest)

/-- Behind an operand there stands a factor, a further clause or nothing. -/
theorem followedBy_factorText {clause : Clause} (hplain : clause.factor.modifier = 1.0)
    (hrest : EndsClause rest) :
    FollowedBy ['*', '_', '$'] (bytesOf clause.factorText ++ rest) := by
  rw [factorText]
  cases hfactor : clause.factor with
  | number value =>
      rw [hfactor] at hplain
      obtain rfl : value = 1.0 := hplain
      exact hrest.mono (by decide)
  | memory place width =>
      intro byte hmem
      cases hinvert : clause.invertBit with
      | true =>
          rw [hinvert, bytesOf_append] at hmem
          cases hmem
          decide
      | false =>
          rw [hinvert, bytesOf_append] at hmem
          cases hmem
          decide

/-- A factor in memory is read after its `*`; for the number one nothing is written. -/
theorem reads_readProduct {clause : Clause} (hfactor : clause.factor.IsRead)
    (hplain : clause.factor.modifier = 1.0) (hrest : EndsClause rest) :
    Reads (readProduct clause.reread.bare) (bytesOf clause.factorText) clause.reread rest := by
  obtain ⟨joining, address, size, literal, bcd, factor, invertBit⟩ := clause
  cases factor with
  | number value =>
      obtain rfl : value = 1.0 := hplain
      have hstop : Reads (Reader.accept '*') [] false rest :=
        Reads.accept_none (hrest.ne (by decide))
      exact hstop.bind_nil (Reads.pure _ rest)
  | memory place width =>
      have hproduct (after : List UInt8) : Reads (Reader.accept '*') ['*'.toUInt8] true after :=
        Reads.accept (by decide) after
      have hplace := (reads_readFactor (hfactor place width rfl) hrest place).map fun factor =>
        { reread ⟨joining, address, size, literal, bcd, .memory place width, invertBit⟩ with factor }
      cases invertBit with
      | true =>
          have hinverted (after : List UInt8) : Reads (Reader.accept '~') ['~'.toUInt8] true after :=
            Reads.accept (by decide) after
          rw [factorText, bytesOf_append]
          exact (hproduct _).bind ((hinverted _).bind hplace)
      | false =>
          have hplainBit : Reads (Reader.accept '~') [] false
              (bytesOf (Operand.addressText width place) ++ rest) := by
            apply Reads.accept_none
            exact (Operand.followedBy_addressText width place rest).ne (by decide)
          rw [factorText, bytesOf_append]
          exact (hproduct _).bind (hplainBit.bind_nil hplace)

/-- What is written before the operand of a clause. -/
def mark (clause : Clause) : String :=
  if clause.literal then "V" else if clause.bcd then "B" else ""

def operandText (clause : Clause) : String :=
  if clause.literal then toString (Format.signed clause.address)
  else Operand.addressText clause.size clause.address

theorem bytesOf_text (clause : Clause) :
    bytesOf clause.text =
      bytesOf clause.mark ++ (bytesOf clause.operandText ++ bytesOf clause.factorText) := by
  have htext : clause.text = clause.mark ++ clause.operandText ++ clause.factorText := by
    rw [text, mark, operandText]
    cases clause.literal with
    | true => rfl
    | false => cases clause.bcd <;> rfl
  rw [htext, bytesOf_append, bytesOf_append, List.append_assoc]

theorem reads_readMarked {clause : Clause} (hfactor : clause.factor.IsRead)
    (hplain : clause.factor.modifier = 1.0) (hrest : EndsClause rest) (start : Nat) :
    Reads (readMarked clause.joining (!clause.literal && clause.bcd) clause.literal start)
      (bytesOf clause.operandText ++ bytesOf clause.factorText) clause.reread rest := by
  have hends : EndsOperand (bytesOf clause.factorText ++ rest) :=
    (followedBy_factorText hplain hrest).endsOperand (by simp [digitValue?])
  have hproduct := reads_readProduct hfactor hplain hrest
  obtain ⟨joining, address, size, literal, bcd, factor, invertBit⟩ := clause
  cases literal with
  | true => exact ((Operand.spells_signed address).reads hends).bind hproduct
  | false =>
      have hplace := Operand.Spells.address (spellsPlace_addressText size address)
      exact (hplace.reads hends).bind hproduct

/-- What is written of a clause is read as the clause it becomes. -/
theorem reads_text {clause : Clause} (hfactor : clause.factor.IsRead)
    (hplain : clause.factor.modifier = 1.0) (hrest : EndsClause rest) :
    Reads (read clause.joining) (bytesOf clause.text) clause.reread rest := by
  rw [read_eq, bytesOf_text]
  refine Reads.position_bind fun start => Reads.peek_bind ?_
  have hmarked := reads_readMarked hfactor hplain hrest start
  have hunmarked := Operand.followedBy_addressText clause.size clause.address
    (bytesOf clause.factorText ++ rest)
  generalize bytesOf clause.factorText = factorBytes at hmarked hunmarked ⊢
  generalize clause.reread = reread at hmarked ⊢
  rw [mark, operandText] at *
  cases hliteral : clause.literal with
  | true =>
      rw [hliteral] at hmarked
      exact hmarked.skip_one 'V'.toUInt8
  | false =>
      rw [hliteral] at hmarked
      cases hbcd : clause.bcd with
      | true =>
          rw [hbcd] at hmarked
          exact hmarked.skip_one 'B'.toUInt8
      | false =>
          rw [hbcd] at hmarked
          have hnothing : bytesOf "" = [] := rfl
          simp only [Bool.false_eq_true, if_false, hnothing, List.nil_append, List.append_assoc]
          rcases hunmarked.peek with hpeek | ⟨letter, hletter, hpeek⟩
          · rw [hpeek]
            exact hmarked
          · rw [hpeek]
            rcases List.mem_pair.mp hletter with rfl | rfl
            · exact hmarked
            · exact hmarked

/-- No clause begins with what is passed over at the front of a formula. -/
theorem followedBy_text (clause : Clause) (rest : List UInt8) :
    FollowedBy ['V', 'B', '0', 'f'] (bytesOf clause.text ++ rest) := by
  have hunmarked := Operand.followedBy_addressText clause.size clause.address
    (bytesOf clause.factorText ++ rest)
  rw [bytesOf_text, mark, operandText, List.append_assoc, List.append_assoc]
  intro byte hmem
  cases hliteral : clause.literal with
  | true =>
      rw [hliteral] at hmem
      cases hmem
      decide
  | false =>
      rw [hliteral] at hmem
      cases hbcd : clause.bcd with
      | true =>
          rw [hbcd] at hmem
          cases hmem
          decide
      | false =>
          rw [hbcd] at hmem
          exact hunmarked.mono (by decide) byte hmem

end Clause

/-! ## The text of a formula -/

theorem Joining.reads_mark {joining : Joining} (hsome : joining ≠ .first) (rest : List UInt8) :
    Reads read? (bytesOf joining.mark) (some joining) rest := by
  intro position
  rw [run_read?]
  cases joining with
  | first => exact absurd rfl hsome
  | addition => rfl
  | maximum => rfl

namespace Formula

/-- What is written of clauses after the mark of the first. -/
def clausesText : List Clause → String
  | [] => ""
  | clause :: later =>
    clause.text ++ String.join (later.map fun other => other.joining.mark ++ other.text)

theorem AreRead.join_text {joining : Joining} {clauses : List Clause}
    (hread : AreRead joining clauses) :
    String.join (clauses.map fun clause => clause.joining.mark ++ clause.text) =
      joining.mark ++ clausesText clauses := by
  cases hread with
  | single hclause => simp [clausesText, hclause.joining]
  | cons hclause hnext hlater => simp [clausesText, hclause.joining, String.append_assoc]

theorem AreRead.bytesOf_clausesText_cons {next : Joining} {later : List Clause}
    (hlater : AreRead next later) (clause : Clause) :
    bytesOf (clausesText (clause :: later)) =
      bytesOf clause.text ++ (bytesOf next.mark ++ bytesOf (clausesText later)) := by
  rw [clausesText, hlater.join_text, bytesOf_append, bytesOf_append]

theorem AreRead.length_le {joining : Joining} {clauses : List Clause}
    (hread : AreRead joining clauses) :
    clauses.length ≤ (bytesOf (clausesText clauses)).length + 1 := by
  induction hread with
  | single => simp
  | @cons _ next clause later hclause hnext hlater ih =>
      have hmark : (bytesOf next.mark).length = 1 := by
        cases next with
        | first => exact absurd rfl hnext
        | addition => rfl
        | maximum => rfl
      rw [hlater.bytesOf_clausesText_cons]
      simp only [List.length_append, List.length_cons, hmark]
      omega

/-- Clauses are read one after the other, each after its mark. -/
theorem AreRead.reads {joining : Joining} {clauses : List Clause} (hread : AreRead joining clauses)
    (hplain : ∀ clause ∈ clauses, clause.factor.modifier = 1.0) {rounds : Nat}
    (hrounds : clauses.length ≤ rounds + 1) :
    Reads (readFrom joining rounds) (bytesOf (clausesText clauses)) (clauses.map Clause.reread)
      [] := by
  induction hread generalizing rounds with
  | @single joining clause hclause =>
      have hends : EndsClause [] := .nil _
      have hfirst := Clause.reads_text hclause.factor (hplain clause (by simp)) hends
      rw [hclause.joining] at hfirst
      have htext : clausesText [clause] = clause.text := by simp [clausesText]
      rw [htext]
      cases rounds with
      | zero => exact hfirst.map fun clause => [clause]
      | succ rounds =>
          have hstop : Reads Joining.read? [] none [] := fun _ => rfl
          rw [← List.append_nil (bytesOf _)]
          refine hfirst.bind (hstop.bind_nil ?_)
          exact Reads.pure [clause.reread] []
  | @cons joining next clause later hclause hnext hlater ih =>
      obtain ⟨rounds, rfl⟩ : ∃ fewer, rounds = fewer + 1 := by
        cases rounds with
        | zero =>
            cases hlater with
            | single => simp at hrounds
            | cons => simp at hrounds
        | succ rounds => exact ⟨rounds, rfl⟩
      have hends : EndsClause (bytesOf next.mark ++ bytesOf (clausesText later) ++ []) := by
        intro byte hmem
        cases next with
        | first => exact absurd rfl hnext
        | addition =>
            cases hmem
            decide
        | maximum =>
            cases hmem
            decide
      have hfirst := Clause.reads_text hclause.factor (hplain clause (by simp)) hends
      rw [hclause.joining] at hfirst
      have hothers := ih (fun other hmem => hplain other (List.mem_cons_of_mem _ hmem))
        (Nat.le_of_succ_le_succ hrounds)
      rw [hlater.bytesOf_clausesText_cons]
      exact hfirst.bind ((Joining.reads_mark hnext _).bind (hothers.map _))

/-- What a formula is once it is read again. -/
def reread (formula : Formula) : Formula := ⟨formula.clauses.map Clause.reread⟩

theorem text_reread (formula : Formula) : formula.reread.text = formula.text := by
  rw [text, text, reread, List.map_map]
  congr 2
  funext clause
  exact congrArg (clause.joining.mark ++ ·) clause.text_reread

theorem AreRead.fillers_clausesText {joining : Joining} {clauses : List Clause}
    (hread : AreRead joining clauses) : fillers (bytesOf (clausesText clauses)) = [] := by
  have hhead : FollowedBy ['V', 'B', '0', 'f'] (bytesOf (clausesText clauses)) := by
    cases hread with
    | single => simpa [clausesText] using Clause.followedBy_text _ []
    | cons _ _ hlater =>
        rw [hlater.bytesOf_clausesText_cons]
        exact Clause.followedBy_text _ _
  exact fillers_eq_nil hhead (by simp [isFiller])

/-- A formula is read again from its text. -/
theorem readAll_eq_reread {formula : Formula} (hread : formula.IsRead)
    (hplain : ∀ clause ∈ formula.clauses, clause.factor.modifier = 1.0) :
    read.readAll formula.text = .ok formula.reread := by
  have htext : formula.text = clausesText formula.clauses := by
    rw [text, AreRead.join_text hread]
    exact String.empty_append
  have hclauses : Reads readClauses (bytesOf formula.text) formula.reread [] := by
    refine Reads.get_bind fun position => ?_
    rw [htext, List.append_nil]
    exact (AreRead.reads hread hplain (AreRead.length_le hread)).map Formula.mk
  have hfillers : fillers (bytesOf formula.text) = [] := by
    rw [htext]
    exact AreRead.fillers_clausesText hread
  exact readAll_of_reads_clauses hfillers hclauses

end Formula

/-! ## The value of a formula that is read again -/

namespace Clause

theorem joining_reread (clause : Clause) : clause.reread.joining = clause.joining := rfl

theorem factor_reread (clause : Clause) : clause.reread.factor = clause.factor := rfl

/-- A literal stands for its number, whatever size and digits it was read with. -/
theorem base_reread (clause : Clause) (frame : Frame) :
    clause.reread.base frame = clause.base frame := by
  cases hliteral : clause.literal with
  | true => simp [base, reread, hliteral]
  | false => simp [base, reread, hliteral]

/-- Only a factor in memory has a bit to turn over. -/
theorem value_reread (clause : Clause) (frame : Frame) :
    clause.reread.value frame = clause.value frame := by
  rw [value, value, base_reread, factor_reread]
  cases hfactor : clause.factor with
  | number modifier => rfl
  | memory address size => simp [reread, hfactor, Factor.memory?]

end Clause

namespace Formula

theorem value_reread (formula : Formula) (frame : Frame) :
    formula.reread.value frame = formula.value frame := by
  simp only [value, reread, List.foldl_map, Clause.joining_reread, Clause.value_reread]

/-- The text of a formula without numbers as factors is accepted again.  The formula read from it
has as many clauses, joined in the same way, has the same value on every frame and is written the
same way. -/
theorem value_readAll_text {source : String} {formula : Formula}
    (hread : read.readAll source = .ok formula)
    (hplain : ∀ clause ∈ formula.clauses, clause.factor.modifier = 1.0) :
    ∃ again, read.readAll formula.text = .ok again ∧
      again.clauses.length = formula.clauses.length ∧
      again.clauses.map Clause.joining = formula.clauses.map Clause.joining ∧
      (∀ frame, again.value frame = formula.value frame) ∧
      again.text = formula.text := by
  have hagain := readAll_eq_reread (ensures_read.readAll hread) hplain
  refine ⟨formula.reread, hagain, ?_, ?_, formula.value_reread, formula.text_reread⟩
  · rw [reread, List.length_map]
  · rw [reread, List.map_map]
    rfl

/-- What is read from `"$ _b0x12*~0Xm10000_vh10$Ff4_B-5"`. -/
def looseFormula : Formula := ⟨[
  { joining := .first, address := 0x12, size := .word .two .little, bcd := true
    factor := .memory 0x10000 (.bit ⟨0, by decide⟩), invertBit := true },
  { joining := .addition, address := 16, size := .byte, literal := true },
  { joining := .maximum, address := 4, size := .float .single .little },
  { joining := .addition, address := 4294967291, size := .byte, literal := true, bcd := true }]⟩

theorem value_readAll_looseFormula :
    ∃ again, read.readAll looseFormula.text = .ok again ∧ again.clauses.length = 4 ∧
      again.clauses.map Clause.joining = [.first, .addition, .maximum, .addition] ∧
      (∀ frame, again.value frame = looseFormula.value frame) ∧
      again.text = looseFormula.text := by
  have hread : read.readAll "$ _b0x12*~0Xm10000_vh10$Ff4_B-5" = .ok looseFormula := by
    with_unfolding_all rfl
  refine value_readAll_text hread ?_
  simp only [looseFormula, List.forall_mem_cons]
  exact ⟨rfl, rfl, rfl, rfl, by simp⟩

end Formula

end AchievementLogic
