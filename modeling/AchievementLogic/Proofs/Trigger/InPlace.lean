import AchievementLogic.Proofs.Text.InPlace
import AchievementLogic.Proofs.Trigger.Alphabet

/-!
# Triggers in place

Operands, conditions, groups and triggers are read in front of a colon as they are read of a text of
their own.  The one place where a colon is looked for is after the letter of a role; a text that ends
in that letter is no condition.
-/

namespace AchievementLogic

open Text Reader

variable {rest : List UInt8} {scan : Scan}

/-! ## Operands -/

namespace Operand

theorem carriesOver_address (hrest : FollowedBy [':'] rest) (cause : ParseError.Cause)
    (start startThere : Nat) :
    CarriesOver rest
      (do
        let _ ← Reader.accepts Scan.acceptHexMark?
        Reader.require Scan.readHex cause start)
      (do
        let _ ← Reader.accepts Scan.acceptHexMark?
        Reader.require Scan.readHex cause startThere) scan := by
  refine (carriesOver_hexMark hrest).bind fun _ after _ => ?_
  exact CarriesOver.require (Scan.carriesOver_readDigits hrest 16 after) cause start startThere

theorem carriesOver_readFloatMemory (hrest : FollowedBy [':'] rest) (access : Access)
    (start startThere : Nat) :
    CarriesOver rest (readFloatMemory access start) (readFloatMemory access startThere) scan := by
  refine CarriesOver.peek_bind hrest ?_ rfl
  cases hsize : scan.peek.bind ReadSize.ofFloatLetter? with
  | none => exact CarriesOver.fail _ _ _
  | some size =>
      obtain ⟨letter, hpeek, -⟩ := Option.bind_eq_some_iff.mp hsize
      refine CarriesOver.skip_one ?_ hpeek
      exact (carriesOver_address hrest .noAddress start startThere).map _

theorem carriesOver_readMemory (hrest : FollowedBy [':'] rest) (access : Access) :
    CarriesOver rest (readMemory access) (readMemory access) scan := by
  refine CarriesOver.position_bind fun start startThere => CarriesOver.peek_bind hrest ?_ rfl
  split
  case isTrue hfloat =>
    obtain ⟨letter, hpeek, -⟩ := isLegible_of_isFloatLetter hfloat
    exact CarriesOver.skip_one (carriesOver_readFloatMemory hrest access start startThere) hpeek
  case isFalse =>
    refine (carriesOver_hexMark hrest).bind fun found after _ => ?_
    cases found with
    | false => exact CarriesOver.fail _ _ _
    | true =>
        refine CarriesOver.peek_bind hrest ?_ rfl
        cases hsize : after.peek.bind ReadSize.ofLetter? with
        | none => exact (carriesOver_address hrest .noAddress start startThere).map _
        | some size =>
            obtain ⟨letter, hpeek, -⟩ := Option.bind_eq_some_iff.mp hsize
            refine CarriesOver.skip_one ?_ hpeek
            exact (carriesOver_address hrest .noAddress start startThere).map _

/-- An operand is told by its first letter and by what stands next to it. -/
theorem carriesOver_read (hrest : FollowedBy [':'] rest) :
    CarriesOver rest read read scan := by
  apply CarriesOver.get_bind
  intro place hplace
  cases hpeek : scan.peek with
  | none => exact CarriesOver.fail _ _ _
  | some letter =>
      have hpos := Scan.length_pos_of_peek hpeek
      have hshown : place.peek = some letter := (hplace.peekAt hpos).trans hpeek
      have hzero := hplace.hasHexMarkAt hrest (Nat.zero_le _)
      have hone := hplace.hasHexMarkAt hrest hpos
      have hfloat := hplace.look_peekAt hrest hpos isFloatLetter rfl
      have hsize := hplace.look_peekAt hrest hpos
        (fun next => (next.bind ReadSize.ofFloatLetter?).isSome) rfl
      have haccessed (access : Access) :
          CarriesOver rest (do Reader.skip 1; readMemory access)
            (do Reader.skip 1; readMemory access) scan :=
        CarriesOver.skip_one (carriesOver_readMemory hrest access) hpeek
      simp only [hshown, hzero, hone, hfloat, hsize]
      split
      case h_1 hletter | h_2 hletter =>
        cases hletter
        split
        · exact haccessed .delta
        · exact CarriesOver.fail _ _ _
      case h_3 hletter | h_4 hletter =>
        cases hletter
        exact haccessed .prior
      case h_5 hletter | h_6 hletter =>
        cases hletter
        exact haccessed .bcd
      case h_7 hletter =>
        cases hletter
        exact haccessed .inverted
      case h_8 hletter | h_9 hletter =>
        cases hletter
        refine CarriesOver.skip_one ?_ hpeek
        split
        · exact carriesOver_readFloatMemory hrest .address _ _
        · exact (CarriesOver.require (Scan.carriesOver_readFloat hrest _) _ _ _).map _
      case h_10 hletter | h_11 hletter =>
        cases hletter
        refine CarriesOver.skip_one ?_ hpeek
        refine (carriesOver_hexMark hrest).bind fun _ after _ => ?_
        exact (CarriesOver.require (Scan.carriesOver_readDigits hrest 16 after) _ _ _).map _
      case h_12 hletter | h_13 hletter =>
        exact (CarriesOver.require (Scan.carriesOver_readSigned hrest _) _ _ _).map _
      case h_14 =>
        split
        · exact carriesOver_readMemory hrest .address
        · split
          · exact (CarriesOver.require (Scan.carriesOver_readDigits hrest 10 _) _ _ _).map _
          · exact CarriesOver.fail _ _ _
      case h_15 hletter => cases hletter

end Operand

/-! ## Comparisons, roles and hit targets -/

/-- A comparison has no more signs than there are letters. -/
theorem Comparison.length_le_of_ofMarks? {comparison : Comparison} {length : Nat}
    (hmarks : ofMarks? scan.peek (scan.peekAt 1) = some (comparison, length)) :
    length ≤ scan.remaining.length := by
  unfold ofMarks? at hmarks
  split at hmarks
  case h_8 => cases hmarks
  all_goals cases hmarks
  case h_1 hnext | h_3 hnext | h_4 hnext | h_6 hnext => exact Scan.lt_length_of_peekAt hnext
  case h_2 hpeek _ | h_5 hpeek _ | h_7 hpeek _ => exact Scan.length_pos_of_peek hpeek

theorem Comparison.ofMarks?_colon (letter : Char) :
    ofMarks? (some letter) (some ':') = ofMarks? (some letter) none := by
  unfold ofMarks?
  split <;> simp_all

theorem Comparison.carriesOver_read? (hrest : FollowedBy [':'] rest) :
    CarriesOver rest read? read? scan := by
  apply CarriesOver.get_bind
  intro place hplace
  cases hpeek : scan.peek with
  | none =>
      have hnone : ofMarks? place.peek (place.peekAt 1) = none := by
        have hsame := hplace.look_peekAt hrest (Nat.zero_le _)
          (fun shown => ofMarks? shown (place.peekAt 1)) rfl
        rw [Scan.peekAt_zero, Scan.peekAt_zero, hpeek] at hsame
        exact hsame
      rw [hnone]
      exact CarriesOver.pure none
  | some letter =>
      have hpos := Scan.length_pos_of_peek hpeek
      have hshown : place.peek = some letter := (hplace.peekAt hpos).trans hpeek
      have hsame := hplace.look_peekAt hrest hpos (ofMarks? (some letter)) (ofMarks?_colon letter)
      rw [hshown, hsame]
      cases hmarks : ofMarks? (some letter) (scan.peekAt 1) with
      | none => exact CarriesOver.pure none
      | some found =>
          have hlength := length_le_of_ofMarks? (hpeek.symm ▸ hmarks)
          exact CarriesOver.skip (CarriesOver.pure _) hlength

/-- The role is told by two letters; in front of fewer there is no condition. -/
theorem Role.carriesOver_read (hlength : 1 < scan.remaining.length) :
    CarriesOver rest read read scan := by
  apply CarriesOver.get_bind
  intro place hplace
  rw [hplace.peekAt hlength, ← Scan.peekAt_zero place, hplace.peekAt (by omega), Scan.peekAt_zero]
  split
  case h_1 letter hpeek hcolon =>
    cases hrole : ofLetter? letter with
    | none => exact CarriesOver.fail _ _ _
    | some role =>
        exact CarriesOver.skip (CarriesOver.pure role) (Scan.lt_length_of_peekAt hcolon)
  case h_2 => exact CarriesOver.pure default

theorem Condition.carriesOver_readUpTo (hrest : FollowedBy [':'] rest) {letter close : Char}
    (hpeek : scan.peek = some letter) (hclose : close ≠ ':') (start startThere : Nat) :
    CarriesOver rest (readHits.readUpTo start close) (readHits.readUpTo startThere close) scan := by
  refine CarriesOver.skip_one ?_ hpeek
  refine CarriesOver.bind (CarriesOver.require (Scan.carriesOver_readDigits hrest 10 _) _ _ _) ?_
  intro hits after _
  refine (carriesOver_accept hrest hclose).bind fun found later _ => ?_
  cases found with
  | false => exact CarriesOver.position_bind fun _ _ => CarriesOver.fail _ _ _
  | true => exact CarriesOver.pure hits

theorem Condition.carriesOver_readHits (hrest : FollowedBy [':'] rest) :
    CarriesOver rest readHits readHits scan := by
  refine CarriesOver.position_bind fun start startThere => CarriesOver.peek_bind hrest ?_ rfl
  split
  case h_1 hpeek => exact carriesOver_readUpTo hrest hpeek (by decide) start startThere
  case h_2 hpeek => exact carriesOver_readUpTo hrest hpeek (by decide) start startThere
  case h_3 => exact CarriesOver.pure 0

/-- No operand begins with the sign of a comparison. -/
theorem Operand.run_read_of_sign {letter : Char} {next? : Option Char}
    (hpeek : scan.peek = some letter) (hsign : (Comparison.ofMarks? (some letter) next?).isSome) :
    read.run scan = .error ⟨.noOperand, some scan.position⟩ scan := by
  have hletter : letter = '=' ∨ letter = '!' ∨ letter = '<' ∨ letter = '>' := by
    unfold Comparison.ofMarks? at hsign
    split at hsign <;> simp_all
  have hmark : scan.hasHexMarkAt 0 = false := by
    rcases hletter with rfl | rfl | rfl | rfl <;> simp [Scan.hasHexMarkAt, hpeek]
  rw [read, run_bind_of_ok (EStateM.run_get scan), hpeek]
  rcases hletter with rfl | rfl | rfl | rfl <;> (simp only [hmark]; rfl)

/-- Where a single byte is left after a reader, it was left alone. -/
theorem peek_of_reaches {after : Scan} {letter : Char} (hlength : scan.remaining.length ≤ 1)
    (hreaches : scan.Reaches after) (hpeek : after.peek = some letter) :
    scan.peek = some letter := by
  obtain ⟨taken, htaken, -⟩ := hreaches
  have hpos := Scan.length_pos_of_peek hpeek
  have hnone : taken = [] := by
    apply List.eq_nil_of_length_eq_zero
    rw [htaken, List.length_append] at hlength
    omega
  rw [hnone, List.nil_append] at htaken
  rw [← hpeek, Scan.peek, Scan.peek, Scan.peekAt, Scan.peekAt, htaken]

/-- A text of one byte is an operand without a comparison, at the most. -/
theorem Condition.run_read_ne_ok {condition : Condition} {after : Scan}
    (hlength : scan.remaining.length ≤ 1) : read.run scan ≠ .ok condition after := by
  intro hrun
  have hnext : scan.peekAt 1 = none := by
    rw [Scan.peekAt, List.getElem?_eq_none hlength, Option.map_none]
  have hrole : Role.read.run scan = .ok default scan := by
    rw [Role.read, run_bind_of_ok (EStateM.run_get scan), hnext]
    cases scan.peek <;> rfl
  rw [read, run_bind_of_ok hrole, EStateM.run_bind] at hrun
  cases hsource : Operand.read.run scan with
  | error error afterSource =>
      rw [hsource] at hrun
      cases hrun
  | ok source afterSource =>
      rw [hsource] at hrun
      have hnone : Comparison.ofMarks? afterSource.peek (afterSource.peekAt 1) = none := by
        cases hpeek : afterSource.peek with
        | none => rfl
        | some letter =>
            by_contra hsign
            have hreaches :=
              (Operand.treads_read (Nat.le_refl scan.position)).ok source afterSource hsource
            have hunmoved := peek_of_reaches hlength hreaches hpeek
            rw [Operand.run_read_of_sign hunmoved (Option.isSome_iff_ne_none.mpr hsign)] at hsource
            cases hsource
      have hplace : Reader.position.run afterSource = .ok afterSource.position afterSource := rfl
      have hcomparison : Comparison.read?.run afterSource = .ok none afterSource := by
        rw [Comparison.read?, run_bind_of_ok (EStateM.run_get afterSource), hnone]
        rfl
      simp only [run_bind_of_ok hplace, run_bind_of_ok hcomparison] at hrun
      cases hrun

/-- A condition ends in front of a colon as at the end of a text; all of its parts do. -/
theorem Condition.carriesOver_read (hrest : FollowedBy [':'] rest) :
    CarriesOver rest read read scan := by
  by_cases hlength : 1 < scan.remaining.length
  · refine (Role.carriesOver_read hlength).bind fun role afterRole _ => ?_
    refine (Operand.carriesOver_read hrest).bind fun source afterSource _ => ?_
    refine CarriesOver.position_bind fun place placeThere => ?_
    refine (Comparison.carriesOver_read? hrest).bind fun comparison? afterSign _ => ?_
    cases comparison? with
    | some comparison =>
        refine (Operand.carriesOver_read hrest).bind fun target afterTarget _ => ?_
        exact (carriesOver_readHits hrest).map _
    | none =>
        simp only
        split
        · exact (carriesOver_readHits hrest).map _
        · exact CarriesOver.fail _ _ _
  · intro condition after hrun
    exact absurd hrun (run_read_ne_ok (Nat.le_of_not_lt hlength))

/-! ## Groups and triggers -/

theorem Group.carriesOver_read (hrest : FollowedBy [':'] rest) :
    CarriesOver rest read read scan := by
  refine CarriesOver.peek_bind hrest ?_ rfl
  split
  case h_1 | h_2 | h_3 => exact CarriesOver.pure _
  case h_4 =>
    refine CarriesOver.map ?_ Group.mk
    exact CarriesOver.separated hrest (by decide) (fun _ => Condition.carriesOver_read hrest)
      fun _ => Condition.treads_read (Nat.le_refl _)

theorem Trigger.carriesOver_read (hrest : FollowedBy [':'] rest) :
    CarriesOver rest read read scan := by
  refine CarriesOver.map ?_ ofGroups
  exact CarriesOver.separated hrest (by decide) (fun _ => Group.carriesOver_read hrest)
    fun _ => Group.treads_read (Nat.le_refl _)

end AchievementLogic
