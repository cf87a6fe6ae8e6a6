import AchievementLogic.Proofs.Text.Treading
import AchievementLogic.Trigger.Text

/-!
# The letters of triggers

The readers of operands, conditions, groups and triggers tread on legible letters only.  Every
reader decides by the letters it sees before it steps over them, so that each is followed branch by
branch; what it does not know it leaves unread.
-/

namespace AchievementLogic

open Text Reader

variable {scan : Scan} {lowest start : Nat}

/-! ## Letters with a meaning -/

theorem isLegible_of_isSome_ofLetter? : ∀ byte : UInt8,
    (ReadSize.ofLetter? (Char.ofUInt8 byte)).isSome → IsLegible byte :=
  forall_byte (by decide +kernel)

theorem isLegible_of_isSome_ofFloatLetter? : ∀ byte : UInt8,
    (ReadSize.ofFloatLetter? (Char.ofUInt8 byte)).isSome → IsLegible byte :=
  forall_byte (by decide +kernel)

theorem isLegible_of_isSome_role : ∀ byte : UInt8,
    (Role.ofLetter? (Char.ofUInt8 byte)).isSome → IsLegible byte :=
  forall_byte (by decide +kernel)

theorem Text.Scan.isLegible_of_peek {Value : Type} {look : Char → Option Value} {value : Value}
    (hall : ∀ byte : UInt8, (look (Char.ofUInt8 byte)).isSome → IsLegible byte)
    {letter : Char} (hpeek : scan.peek = some letter) (hlook : look letter = some value) :
    isLegible letter = true := by
  obtain ⟨remaining, position⟩ := scan
  cases remaining with
  | nil => cases hpeek
  | cons byte others =>
      obtain rfl : Char.ofUInt8 byte = letter := Option.some.inj hpeek
      exact hall byte (Option.isSome_of_eq_some hlook)

/-! ## Operands -/

namespace Operand

theorem treads_readAddress (hlowest : lowest ≤ start) (hstart : start ≤ scan.position) :
    Treads (readAddress start) lowest scan := by
  refine Treads.hexMark.bind fun found after _ hafter => ?_
  have hlater := hstart.trans hafter.position_le
  exact Treads.require (Scan.reachesBy_readDigits 16 after) .noAddress hlowest hlater

theorem treads_memory (access : Access) (size : ReadSize) (hlowest : lowest ≤ start)
    (hstart : start ≤ scan.position) :
    Treads (do return Operand.memory { access, size, address := ← readAddress start }) lowest
      scan :=
  (treads_readAddress hlowest hstart).map fun address => memory { access, size, address }

/-- Reading the letter of a size and then the address. -/
theorem treads_sized {look : Char → Option ReadSize} {size : ReadSize}
    (hall : ∀ byte : UInt8, (look (Char.ofUInt8 byte)).isSome → IsLegible byte)
    (hsize : scan.peek.bind look = some size) (access : Access) (hlowest : lowest ≤ start)
    (hstart : start ≤ scan.position) :
    Treads (do
      Reader.skip 1
      return Operand.memory { access, size, address := ← readAddress start }) lowest scan := by
  obtain ⟨letter, hpeek, hlook⟩ := Option.bind_eq_some_iff.mp hsize
  have hletter := Scan.isLegible_of_peek hall hpeek hlook
  have hlater := hstart.trans (Scan.reaches_skip_one hpeek hletter).position_le
  exact Treads.skip_one hpeek hletter (treads_memory access size hlowest hlater)

theorem treads_readFloatMemory (access : Access) (hlowest : lowest ≤ start)
    (hstart : start ≤ scan.position) : Treads (readFloatMemory access start) lowest scan := by
  refine Treads.peek_bind ?_
  split
  case h_1 size hsize =>
    exact treads_sized isLegible_of_isSome_ofFloatLetter? hsize access hlowest hstart
  case h_2 => exact Treads.fail .noFloatSize hlowest hstart

theorem isLegible_of_isFloatLetter {letter? : Option Char} (hfloat : isFloatLetter letter? = true) :
    ∃ letter, letter? = some letter ∧ isLegible letter = true := by
  simp only [isFloatLetter, Bool.or_eq_true, decide_eq_true_eq] at hfloat
  rcases hfloat with rfl | rfl
  · exact ⟨'f', rfl, by decide⟩
  · exact ⟨'F', rfl, by decide⟩

theorem treads_readMemory (access : Access) (hlowest : lowest ≤ scan.position) :
    Treads (readMemory access) lowest scan := by
  refine Treads.position_bind (Treads.peek_bind ?_)
  split
  case isTrue hfloat =>
    obtain ⟨letter, hpeek, hletter⟩ := isLegible_of_isFloatLetter hfloat
    have hlater := (Scan.reaches_skip_one hpeek hletter).position_le
    exact Treads.skip_one hpeek hletter (treads_readFloatMemory access hlowest hlater)
  case isFalse =>
    refine Treads.hexMark.bind fun found after _ hafter => ?_
    cases found with
    | false => exact Treads.fail .noHexMark hlowest hafter.position_le
    | true =>
        refine Treads.peek_bind ?_
        cases hsize : after.peek.bind ReadSize.ofLetter? with
        | none => exact treads_memory access _ hlowest hafter.position_le
        | some size =>
            exact treads_sized isLegible_of_isSome_ofLetter? hsize access hlowest
              hafter.position_le

/-- Stepping over the letter of an access and reading a place in memory. -/
theorem treads_accessed {letter : Char} (hpeek : scan.peek = some letter)
    (hletter : isLegible letter = true) (access : Access) (hlowest : lowest ≤ scan.position) :
    Treads (do Reader.skip 1; readMemory access) lowest scan := by
  have hlater := (Scan.reaches_skip_one hpeek hletter).position_le
  exact Treads.skip_one hpeek hletter (treads_readMemory access (hlowest.trans hlater))

theorem treads_floatOperand {letter : Char} (hpeek : scan.peek = some letter)
    (hletter : isLegible letter = true) (sized : Bool) (hlowest : lowest ≤ scan.position) :
    Treads (do
      Reader.skip 1
      if sized then readFloatMemory .address scan.position
      else return float (← Reader.require Scan.readFloat .noFloatNumber scan.position)) lowest
      scan := by
  have hlater := (Scan.reaches_skip_one hpeek hletter).position_le
  refine Treads.skip_one hpeek hletter ?_
  cases sized with
  | true => exact treads_readFloatMemory .address hlowest hlater
  | false =>
      have hnumber := Scan.reachesBy_readFloat (scan.skip 1)
      exact (Treads.require hnumber .noFloatNumber hlowest hlater).map float

theorem treads_hexWord {letter : Char} (hpeek : scan.peek = some letter)
    (hletter : isLegible letter = true) (hlowest : lowest ≤ scan.position) :
    Treads (do
      Reader.skip 1
      let _ ← Reader.accepts Scan.acceptHexMark?
      return word (← Reader.require Scan.readHex .noHexNumber scan.position)) lowest scan := by
  have hskip := Scan.reaches_skip_one hpeek hletter
  refine Treads.skip_one hpeek hletter (Treads.hexMark.bind fun found after _ hafter => ?_)
  have hnumber := Scan.reachesBy_readDigits 16 after
  have hlater := hskip.position_le.trans hafter.position_le
  exact (Treads.require hnumber .noHexNumber hlowest hlater).map word

/-- The first letter of an operand says which reader goes on, and each of them keeps to legible
letters. -/
theorem treads_read (hlowest : lowest ≤ scan.position) : Treads read lowest scan := by
  refine Treads.get_bind ?_
  split
  case h_1 hpeek | h_2 hpeek =>
    split
    · exact treads_accessed hpeek (by decide) .delta hlowest
    · exact Treads.fail .noOperand hlowest (Nat.le_refl _)
  case h_3 hpeek | h_4 hpeek => exact treads_accessed hpeek (by decide) .prior hlowest
  case h_5 hpeek | h_6 hpeek => exact treads_accessed hpeek (by decide) .bcd hlowest
  case h_7 hpeek => exact treads_accessed hpeek (by decide) .inverted hlowest
  case h_8 hpeek | h_9 hpeek => exact treads_floatOperand hpeek (by decide) _ hlowest
  case h_10 hpeek | h_11 hpeek => exact treads_hexWord hpeek (by decide) hlowest
  case h_12 hpeek | h_13 hpeek =>
    have hnumber := Scan.reachesBy_readSigned scan
    exact (Treads.require hnumber .noNumber hlowest (Nat.le_refl _)).map word
  case h_14 =>
    split
    · exact treads_readMemory .address hlowest
    · split
      · have hnumber := Scan.reachesBy_readDigits 10 scan
        exact (Treads.require hnumber .noNumber hlowest (Nat.le_refl _)).map word
      · exact Treads.fail .noOperand hlowest (Nat.le_refl _)
  case h_15 => exact Treads.fail .noOperand hlowest (Nat.le_refl _)

end Operand

/-! ## Roles, comparisons and hit targets -/

theorem Role.treads_read (hlowest : lowest ≤ scan.position) : Treads read lowest scan := by
  refine Treads.get_bind ?_
  split
  case h_1 letter hpeek hcolon =>
    cases hrole : ofLetter? letter with
    | none => exact Treads.fail (.unknownRole letter) hlowest (Nat.le_refl _)
    | some role =>
        have hletter := Scan.isLegible_of_peek isLegible_of_isSome_role hpeek hrole
        have hskip := Scan.reaches_skip_two hpeek hcolon hletter (by decide)
        exact (Treads.skip hskip).bind fun _ _ _ _ => Treads.pure role
  case h_2 => exact Treads.pure default

/-- A comparison is made of one or two signs. -/
theorem Comparison.reaches_of_ofMarks? {comparison : Comparison} {length : Nat}
    (hmarks : ofMarks? scan.peek (scan.peekAt 1) = some (comparison, length)) :
    scan.Reaches (scan.skip length) := by
  unfold ofMarks? at hmarks
  split at hmarks
  case h_8 => cases hmarks
  all_goals cases hmarks
  case h_1 hpeek hnext | h_3 hpeek hnext | h_4 hpeek hnext | h_6 hpeek hnext =>
    exact Scan.reaches_skip_two hpeek hnext (by decide) (by decide)
  case h_2 hpeek _ | h_5 hpeek _ | h_7 hpeek _ => exact Scan.reaches_skip_one hpeek (by decide)

theorem Comparison.treads_read? : Treads read? lowest scan := by
  refine Treads.get_bind ?_
  split
  case h_1 comparison length hmarks =>
    exact (Treads.skip (reaches_of_ofMarks? hmarks)).bind fun _ _ _ _ => Treads.pure _
  case h_2 => exact Treads.pure none

namespace Condition

theorem treads_readUpTo {opening close : Char} (hpeek : scan.peek = some opening)
    (hopening : isLegible opening = true) (hclose : isLegible close = true)
    (hlowest : lowest ≤ scan.position) :
    Treads (readHits.readUpTo scan.position close) lowest scan := by
  have hskip := Scan.reaches_skip_one hpeek hopening
  refine Treads.skip_one hpeek hopening ?_
  have hnumber := Scan.reachesBy_readDigits 10 (scan.skip 1)
  refine (Treads.require hnumber .noHitCount hlowest hskip.position_le).bind ?_
  intro hits after _ hafter
  refine (Treads.accept hclose).bind fun found later _ hlater => ?_
  cases found with
  | true => exact Treads.pure hits
  | false =>
      have hreaches := (hskip.trans hafter).trans hlater
      have hstop := hlowest.trans hreaches.position_le
      exact Treads.position_bind (Treads.fail (.openHitCount close) hstop (Nat.le_refl _))

theorem treads_readHits (hlowest : lowest ≤ scan.position) : Treads readHits lowest scan := by
  refine Treads.position_bind (Treads.peek_bind ?_)
  split
  case h_1 hpeek => exact treads_readUpTo hpeek (by decide) (by decide) hlowest
  case h_2 hpeek => exact treads_readUpTo hpeek (by decide) (by decide) hlowest
  case h_3 => exact Treads.pure 0

theorem treads_read (hlowest : lowest ≤ scan.position) : Treads read lowest scan := by
  refine (Role.treads_read hlowest).bind fun role afterRole _ hrole => ?_
  have hlowestRole := hlowest.trans hrole.position_le
  refine (Operand.treads_read hlowestRole).bind fun source afterSource _ hsource => ?_
  have hlowestSource := hlowestRole.trans hsource.position_le
  refine Treads.position_bind (Comparison.treads_read?.bind fun comparison? afterSign _ hsign => ?_)
  have hlowestSign := hlowestSource.trans hsign.position_le
  cases comparison? with
  | some comparison =>
      refine (Operand.treads_read hlowestSign).bind fun target afterTarget _ htarget => ?_
      exact (treads_readHits (hlowestSign.trans htarget.position_le)).map _
  | none =>
      simp only
      split
      · exact (treads_readHits hlowestSign).map _
      · exact Treads.fail .noComparison hlowestSource hsign.position_le

end Condition

/-! ## Groups and triggers -/

theorem Group.treads_read (hlowest : lowest ≤ scan.position) : Treads read lowest scan := by
  refine Treads.peek_bind ?_
  split
  case h_1 | h_2 | h_3 => exact Treads.pure (Group.mk [])
  case h_4 =>
    have hseparator : isLegible '_' = true := by decide
    have hconditions := Treads.separated hseparator (fun _ => Condition.treads_read) hlowest
    exact hconditions.map Group.mk

theorem Trigger.treads_read (hlowest : lowest ≤ scan.position) : Treads read lowest scan := by
  have hseparator : isLegible 'S' = true := by decide
  have hgroups := Treads.separated hseparator (fun _ => Group.treads_read) hlowest
  exact hgroups.map ofGroups

/-- A text that is read as a trigger is legible. -/
theorem Trigger.isLegible_of_readAll {text : String} {trigger : Trigger}
    (hread : read.readAll text = .ok trigger) : ∀ byte ∈ bytesOf text, IsLegible byte :=
  Treads.readAll (fun _ => treads_read (Nat.le_refl _)) hread

end AchievementLogic
