import AchievementLogic.Proofs.Text.Treading

/-!
# Reading in place

A text on its own ends where it ends; in place, a colon follows it.  A reader *carries over* if it
does not tell the one from the other: what it reads at the end of a text it reads in front of a
colon as well, and it stops at the same byte.  Readers carry over that treat a colon like the end of
the text wherever they look ahead.
-/

namespace AchievementLogic

open Text

variable {Value Result : Type} {rest : List UInt8}

/-! ## Places in a text and in a longer one -/

theorem FollowedBy.endsDigits (hrest : FollowedBy [':'] rest) (base : Nat) :
    EndsDigits base rest := by
  intro byte hmem
  have hcolon : Char.ofUInt8 byte = ':' := by simpa using hrest byte hmem
  rw [hcolon]
  rfl

namespace Text

namespace Scan

/-- The same place in a text that goes on with `rest`. -/
def GoesOn (rest : List UInt8) (scan place : Scan) : Prop :=
  place.remaining = scan.remaining ++ rest

namespace GoesOn

variable {scan place : Scan}

theorem skip (hplace : scan.GoesOn rest place) {count : Nat}
    (hcount : count ≤ scan.remaining.length) :
    (scan.skip count).GoesOn rest (place.skip count) := by
  rw [GoesOn, Scan.skip, Scan.skip, hplace, List.drop_append_of_le_length hcount]

theorem peekAt (hplace : scan.GoesOn rest place) {offset : Nat}
    (hoffset : offset < scan.remaining.length) : place.peekAt offset = scan.peekAt offset := by
  rw [Scan.peekAt, Scan.peekAt, hplace, List.getElem?_append_left hoffset]

/-- What does not tell a colon from the end of the text finds the same in place. -/
theorem look_peekAt (hplace : scan.GoesOn rest place) (hrest : FollowedBy [':'] rest)
    {offset : Nat} (hoffset : offset ≤ scan.remaining.length) (look : Option Char → Result)
    (hcolon : look (some ':') = look none) :
    look (place.peekAt offset) = look (scan.peekAt offset) := by
  rcases Nat.lt_or_eq_of_le hoffset with hlt | heq
  · rw [hplace.peekAt hlt]
  · have hnone : scan.peekAt offset = none := by
      rw [Scan.peekAt, heq, List.getElem?_eq_none (Nat.le_refl _), Option.map_none]
    have hshown : place.peekAt offset = rest.head?.map Char.ofUInt8 := by
      rw [Scan.peekAt, hplace, heq, List.getElem?_append_right (Nat.le_refl _), Nat.sub_self,
        List.head?_eq_getElem?]
    rw [hnone, hshown]
    cases rest with
    | nil => rfl
    | cons byte others =>
        have hbyte : Char.ofUInt8 byte = ':' := by simpa using hrest byte (by simp)
        rw [List.head?_cons, Option.map_some, hbyte, hcolon]

theorem peekAt_eq_some_iff (hplace : scan.GoesOn rest place) (hrest : FollowedBy [':'] rest)
    {offset : Nat} (hoffset : offset ≤ scan.remaining.length) {letter : Char}
    (hletter : letter ≠ ':') :
    place.peekAt offset = some letter ↔ scan.peekAt offset = some letter := by
  apply iff_of_eq
  apply hplace.look_peekAt hrest hoffset fun shown => shown = some letter
  simp [hletter.symm]

/-- A colon is no part of `0x`, so that the mark is found in place just where it is found at the
end. -/
theorem hasHexMarkAt (hplace : scan.GoesOn rest place) (hrest : FollowedBy [':'] rest)
    {offset : Nat} (hoffset : offset ≤ scan.remaining.length) :
    place.hasHexMarkAt offset = scan.hasHexMarkAt offset := by
  have hzero := hplace.peekAt_eq_some_iff hrest hoffset (by decide : '0' ≠ ':')
  rcases Nat.lt_or_eq_of_le hoffset with hlt | heq
  · have hlower := hplace.peekAt_eq_some_iff hrest hlt (by decide : 'x' ≠ ':')
    have hupper := hplace.peekAt_eq_some_iff hrest hlt (by decide : 'X' ≠ ':')
    simp only [Scan.hasHexMarkAt, hzero, hlower, hupper]
  · have hnone : scan.peekAt offset = none := by
      rw [Scan.peekAt, heq, List.getElem?_eq_none (Nat.le_refl _), Option.map_none]
    simp [Scan.hasHexMarkAt, hzero, hnone]

theorem digitRun (hplace : scan.GoesOn rest place) (hrest : FollowedBy [':'] rest) (base : Nat) :
    place.digitRun base = scan.digitRun base := by
  obtain ⟨front, back, digits, hscan, hfront, hback⟩ := exists_leadingDigits base scan.remaining
  have hends : EndsDigits base (back ++ rest) := by
    cases back with
    | nil => exact hrest.endsDigits base
    | cons byte others => exact hback
  rw [Scan.digitRun, Scan.digitRun, hplace, hscan, List.append_assoc,
    leadingDigits_append hfront hends, leadingDigits_append hfront hback]

end GoesOn

/-! ## Look-ups -/

/-- What a look-up finds at the end of a text it finds in place. -/
def CarriesOver (rest : List UInt8) (read : Scan → Option (Value × Scan)) (scan : Scan) : Prop :=
  ∀ value after, read scan = some (value, after) → ∀ place, scan.GoesOn rest place →
    ∃ later, read place = some (value, later) ∧ after.GoesOn rest later

theorem length_digitRun_le (scan : Scan) (base : Nat) :
    (scan.digitRun base).length ≤ scan.remaining.length := by
  obtain ⟨front, back, digits, hscan, hfront, hback⟩ := exists_leadingDigits base scan.remaining
  have hlength : digits.length = front.length := by
    simpa using (congrArg List.length hfront).symm
  rw [digitRun, hscan, leadingDigits_append hfront hback, hlength, List.length_append]
  exact Nat.le_add_right _ _

theorem carriesOver_readDigits (hrest : FollowedBy [':'] rest) (base : Nat) (scan : Scan) :
    CarriesOver rest (·.readDigits base) scan := by
  intro value after hread place hplace
  simp only [readDigits] at hread
  split at hread
  case h_1 => cases hread
  case h_2 hsome =>
    cases hread
    have hrun := hplace.digitRun hrest base
    refine ⟨_, ?_, hplace.skip (scan.length_digitRun_le base)⟩
    simp only [readDigits, hrun]

/-- Where a letter is seen there is a byte. -/
theorem lt_length_of_peekAt {scan : Scan} {offset : Nat} {letter : Char}
    (hpeek : scan.peekAt offset = some letter) : offset < scan.remaining.length := by
  obtain ⟨byte, hbyte, -⟩ := Option.map_eq_some_iff.mp hpeek
  exact (List.getElem?_eq_some_iff.mp hbyte).1

theorem length_pos_of_peek {scan : Scan} {letter : Char} (hpeek : scan.peek = some letter) :
    0 < scan.remaining.length := lt_length_of_peekAt hpeek

theorem two_le_length_of_hexMark {scan : Scan} (hmark : scan.hasHexMarkAt 0 = true) :
    2 ≤ scan.remaining.length := by
  simp only [hasHexMarkAt, Bool.and_eq_true, Bool.or_eq_true, decide_eq_true_eq] at hmark
  obtain ⟨-, hlower | hupper⟩ := hmark
  · exact lt_length_of_peekAt hlower
  · exact lt_length_of_peekAt hupper

/-- A colon is neither a sign nor a digit: a signed number ends in front of it as at the end of a
text. -/
theorem carriesOver_readSigned (hrest : FollowedBy [':'] rest) (scan : Scan) :
    CarriesOver rest readSigned scan := by
  intro value after hread place hplace
  have hbehind {letter : Char} (hpeek : scan.peek = some letter) {size : UInt32} {last : Scan}
      (hsize : (scan.skip 1).readUnsigned = some (size, last)) :
      ∃ later, (place.skip 1).readUnsigned = some (size, later) ∧ last.GoesOn rest later :=
    carriesOver_readDigits hrest 10 _ size last hsize _ (hplace.skip (length_pos_of_peek hpeek))
  have hsame {letter : Char} (hletter : letter ≠ ':') :
      place.peek = some letter ↔ scan.peek = some letter :=
    hplace.peekAt_eq_some_iff hrest (Nat.zero_le _) hletter
  simp only [readSigned] at hread
  split at hread
  case h_1 hpeek =>
    obtain ⟨⟨size, last⟩, hsize, heq⟩ := Option.map_eq_some_iff.mp hread
    cases heq
    obtain ⟨later, hlater, hgoes⟩ := hbehind hpeek hsize
    refine ⟨later, ?_, hgoes⟩
    simp [readSigned, (hsame (by decide)).mpr hpeek, hlater]
  case h_2 hpeek =>
    obtain ⟨later, hlater, hgoes⟩ := hbehind hpeek hread
    refine ⟨later, ?_, hgoes⟩
    simp [readSigned, (hsame (by decide)).mpr hpeek, hlater]
  case h_3 hminus hplus =>
    obtain ⟨later, hlater, hgoes⟩ := carriesOver_readDigits hrest 10 _ value after hread _ hplace
    refine ⟨later, ?_, hgoes⟩
    rw [readSigned]
    split
    case h_1 hpeek => exact absurd ((hsame (by decide)).mp hpeek) hminus
    case h_2 hpeek => exact absurd ((hsame (by decide)).mp hpeek) hplus
    case h_3 => exact hlater

/-! ### Decimal fractions -/

theorem length_fraction_lt {scan : Scan} (hsome : scan.fraction ≠ []) :
    scan.fraction.length + 1 ≤ scan.remaining.length := by
  obtain ⟨hpoint, hfraction⟩ := fraction_eq_of_ne_nil hsome
  have hpos := length_pos_of_peek hpoint
  have hle := length_digitRun_le (scan.skip 1) 10
  rw [hfraction]
  simp only [skip, List.length_drop] at hle ⊢
  omega

namespace GoesOn

variable {scan place : Scan}

theorem peek_eq_some_iff (hplace : scan.GoesOn rest place) (hrest : FollowedBy [':'] rest)
    {letter : Char} (hletter : letter ≠ ':') :
    place.peek = some letter ↔ scan.peek = some letter :=
  hplace.peekAt_eq_some_iff hrest (Nat.zero_le _) hletter

theorem afterSign (hplace : scan.GoesOn rest place) (hrest : FollowedBy [':'] rest) :
    scan.afterSign.GoesOn rest place.afterSign := by
  have hminus := hplace.peek_eq_some_iff hrest (by decide : '-' ≠ ':')
  have hplus := hplace.peek_eq_some_iff hrest (by decide : '+' ≠ ':')
  simp only [Scan.afterSign, hminus, hplus]
  split
  case isTrue hsign =>
    simp only [Bool.or_eq_true, decide_eq_true_eq] at hsign
    rcases hsign with hpeek | hpeek
    · exact hplace.skip (length_pos_of_peek hpeek)
    · exact hplace.skip (length_pos_of_peek hpeek)
  case isFalse => exact hplace

theorem afterWhole (hplace : scan.GoesOn rest place) (hrest : FollowedBy [':'] rest) :
    scan.afterWhole.GoesOn rest place.afterWhole := by
  have hsign := hplace.afterSign hrest
  rw [Scan.afterWhole, Scan.afterWhole, hsign.digitRun hrest]
  exact hsign.skip (length_digitRun_le _ 10)

theorem fraction (hplace : scan.GoesOn rest place) (hrest : FollowedBy [':'] rest) :
    place.fraction = scan.fraction := by
  simp only [Scan.fraction, hplace.peek_eq_some_iff hrest (by decide : '.' ≠ ':')]
  split
  case isTrue hpoint => exact (hplace.skip (length_pos_of_peek hpoint)).digitRun hrest 10
  case isFalse => rfl

end GoesOn

/-- A colon is neither a point nor a digit: a fraction ends in front of it as at the end of a text.
-/
theorem carriesOver_readFloat (hrest : FollowedBy [':'] rest) (scan : Scan) :
    CarriesOver rest readFloat scan := by
  intro value after hread place hplace
  rw [readFloat_eq] at hread
  have hinPlace : place.readFloat =
      if scan.afterWhole.fraction.isEmpty then
        if (scan.afterSign.digitRun 10).isEmpty then none
        else some (Binary64.ofRatio (scan.peek = some '-')
          (decimalValue (scan.afterSign.digitRun 10)) 1, place.afterWhole)
      else
        some (Binary64.ofRatio (scan.peek = some '-')
          (decimalValue (scan.afterSign.digitRun 10 ++ scan.afterWhole.fraction))
          (Nat.pow 10 scan.afterWhole.fraction.length),
          place.afterWhole.skip (scan.afterWhole.fraction.length + 1)) := by
    simp only [readFloat_eq, (hplace.afterWhole hrest).fraction hrest,
      (hplace.afterSign hrest).digitRun hrest,
      hplace.peek_eq_some_iff hrest (by decide : '-' ≠ ':')]
  by_cases hfraction : scan.afterWhole.fraction.isEmpty
  · rw [if_pos hfraction, Option.ite_none_left_eq_some] at hread
    obtain ⟨hwhole, hsome⟩ := hread
    cases hsome
    refine ⟨place.afterWhole, ?_, hplace.afterWhole hrest⟩
    rw [hinPlace, if_pos hfraction, if_neg hwhole]
  · rw [if_neg hfraction] at hread
    cases hread
    have hsome : scan.afterWhole.fraction ≠ [] := by simpa using hfraction
    refine ⟨place.afterWhole.skip (scan.afterWhole.fraction.length + 1), ?_, ?_⟩
    · rw [hinPlace, if_neg hfraction]
    · exact (hplace.afterWhole hrest).skip (length_fraction_lt hsome)

end Scan

end Text

namespace Reader

/-! ## Readers -/

/-- Where `here` reads a value at the end of a text, `there` reads it in place.  The two are one
reader, but for what they say of a failure and for what they saw where the text ends. -/
def CarriesOver (rest : List UInt8) (here there : Reader Value) (scan : Scan) : Prop :=
  ∀ value after, here.run scan = .ok value after → ∀ place, scan.GoesOn rest place →
    ∃ later, there.run place = .ok value later ∧ after.GoesOn rest later

variable {scan : Scan}

theorem CarriesOver.pure (value : Value) :
    CarriesOver rest (Pure.pure value) (Pure.pure value) scan := by
  intro result after hrun place hplace
  cases hrun
  exact ⟨place, rfl, hplace⟩

theorem CarriesOver.fail (cause : ParseError.Cause) (position : Nat) (there : Reader Value) :
    CarriesOver rest (Reader.fail cause position) there scan := by
  intro value after hrun
  cases hrun

/-- Of two readers in a row the second one has to carry over only from where the first one stops. -/
theorem CarriesOver.bind {here there : Reader Value} {next nextThere : Value → Reader Result}
    (hfirst : CarriesOver rest here there scan)
    (hnext : ∀ value after, here.run scan = .ok value after →
      CarriesOver rest (next value) (nextThere value) after) :
    CarriesOver rest (here >>= next) (there >>= nextThere) scan := by
  intro result last hrun place hplace
  rw [EStateM.run_bind] at hrun
  cases hvalue : here.run scan with
  | error error between =>
      rw [hvalue] at hrun
      cases hrun
  | ok value between =>
      rw [hvalue] at hrun
      obtain ⟨middle, hmiddle, hgoes⟩ := hfirst value between hvalue place hplace
      obtain ⟨later, hlater, hgoesNext⟩ := hnext value between hvalue result last hrun middle hgoes
      refine ⟨later, ?_, hgoesNext⟩
      rw [run_bind_of_ok hmiddle, hlater]

theorem CarriesOver.map {here there : Reader Value} (hreader : CarriesOver rest here there scan)
    (change : Value → Result) :
    CarriesOver rest (do return change (← here)) (do return change (← there)) scan :=
  hreader.bind fun value _ _ => CarriesOver.pure (change value)

/-! A reader that only looks leaves everything to the next one. -/

theorem CarriesOver.get_bind {next nextThere : Scan → Reader Result}
    (hnext : ∀ place, scan.GoesOn rest place →
      CarriesOver rest (next scan) (nextThere place) scan) :
    CarriesOver rest (get >>= next) (get >>= nextThere) scan :=
  fun value after hrun place hplace => hnext place hplace value after hrun place hplace

theorem CarriesOver.position_bind {next nextThere : Nat → Reader Result}
    (hnext : ∀ start startThere, CarriesOver rest (next start) (nextThere startThere) scan) :
    CarriesOver rest (Reader.position >>= next) (Reader.position >>= nextThere) scan :=
  CarriesOver.get_bind fun _ _ => hnext _ _

/-- What comes next is the same in place, unless a colon shows there instead of nothing. -/
theorem CarriesOver.peek_bind {next nextThere : Option Char → Reader Result}
    (hrest : FollowedBy [':'] rest)
    (hnext : CarriesOver rest (next scan.peek) (nextThere scan.peek) scan)
    (hcolon : nextThere (some ':') = nextThere none) :
    CarriesOver rest (Reader.peek >>= next) (Reader.peek >>= nextThere) scan := by
  apply CarriesOver.get_bind
  intro place hplace
  have hshown : nextThere place.peek = nextThere scan.peek :=
    hplace.look_peekAt hrest (Nat.zero_le _) nextThere hcolon
  rw [hshown]
  exact hnext

theorem CarriesOver.skip {here there : Reader Result} {count : Nat}
    (hnext : CarriesOver rest here there (scan.skip count))
    (hcount : count ≤ scan.remaining.length) :
    CarriesOver rest (Reader.skip count >>= fun _ => here) (Reader.skip count >>= fun _ => there)
      scan :=
  fun value after hrun _ hplace => hnext value after hrun _ (hplace.skip hcount)

theorem CarriesOver.skip_one {here there : Reader Result} {letter : Char}
    (hnext : CarriesOver rest here there (scan.skip 1)) (hpeek : scan.peek = some letter) :
    CarriesOver rest (Reader.skip 1 >>= fun _ => here) (Reader.skip 1 >>= fun _ => there) scan :=
  hnext.skip (Scan.length_pos_of_peek hpeek)

theorem CarriesOver.require {read : Scan → Option (Value × Scan)}
    (hread : Scan.CarriesOver rest read scan) (cause : ParseError.Cause) (start startThere : Nat) :
    CarriesOver rest (Reader.require read cause start) (Reader.require read cause startThere)
      scan := by
  intro value after hrun place hplace
  cases hvalue : read scan with
  | none =>
      rw [Reader.require, run_bind_of_ok (EStateM.run_get scan), hvalue] at hrun
      cases hrun
  | some result =>
      rw [run_require hvalue] at hrun
      cases hrun
      obtain ⟨later, hlater, hgoes⟩ := hread _ _ hvalue place hplace
      exact ⟨later, run_require hlater _ _, hgoes⟩

/-- A step that is taken in place exactly if it is taken at the end of the text. -/
theorem CarriesOver.accepts {step : Scan → Option Scan}
    (hsome : ∀ after, step scan = some after → ∀ place, scan.GoesOn rest place →
      ∃ later, step place = some later ∧ after.GoesOn rest later)
    (hnone : step scan = none → ∀ place, scan.GoesOn rest place → step place = none) :
    CarriesOver rest (Reader.accepts step) (Reader.accepts step) scan := by
  intro found after hrun place hplace
  cases hstep : step scan with
  | none =>
      rw [run_accepts_none hstep] at hrun
      cases hrun
      exact ⟨place, run_accepts_none (hnone hstep place hplace), hplace⟩
  | some between =>
      rw [run_accepts_some hstep] at hrun
      cases hrun
      obtain ⟨later, hlater, hgoes⟩ := hsome after hstep place hplace
      exact ⟨later, run_accepts_some hlater, hgoes⟩

theorem carriesOver_accept (hrest : FollowedBy [':'] rest) {expected : Char}
    (hexpected : expected ≠ ':') :
    CarriesOver rest (Reader.accept expected) (Reader.accept expected) scan := by
  have hsame {place : Scan} (hplace : scan.GoesOn rest place) :=
    hplace.peek_eq_some_iff hrest hexpected
  apply CarriesOver.accepts
  · intro after hstep place hplace
    obtain ⟨hpeek, rfl⟩ : scan.peek = some expected ∧ scan.skip 1 = after := by
      simpa [Scan.accept?, Option.ite_none_right_eq_some] using hstep
    refine ⟨place.skip 1, ?_, hplace.skip (Scan.length_pos_of_peek hpeek)⟩
    rw [Scan.accept?, if_pos ((hsame hplace).mpr hpeek)]
  · intro hstep place hplace
    have hpeek : scan.peek ≠ some expected := by simpa [Scan.accept?] using hstep
    rw [Scan.accept?, if_neg (mt (hsame hplace).mp hpeek)]

theorem carriesOver_hexMark (hrest : FollowedBy [':'] rest) :
    CarriesOver rest (Reader.accepts Scan.acceptHexMark?) (Reader.accepts Scan.acceptHexMark?)
      scan := by
  have hsame {place : Scan} (hplace : scan.GoesOn rest place) :=
    hplace.hasHexMarkAt hrest (Nat.zero_le _)
  apply CarriesOver.accepts
  · intro after hstep place hplace
    obtain ⟨hmark, rfl⟩ : scan.hasHexMarkAt 0 = true ∧ scan.skip 2 = after := by
      simpa [Scan.acceptHexMark?, Option.ite_none_right_eq_some] using hstep
    refine ⟨place.skip 2, ?_, hplace.skip (Scan.two_le_length_of_hexMark hmark)⟩
    rw [Scan.acceptHexMark?, hsame hplace, if_pos hmark]
  · intro hstep place hplace
    have hmark : scan.hasHexMarkAt 0 = false := by simpa [Scan.acceptHexMark?] using hstep
    rw [Scan.acceptHexMark?, hsame hplace, hmark]
    rfl

/-! ## Items between separators -/

/-- A separator is stepped over, so that what is left is shorter. -/
theorem length_lt_of_accept {expected : Char} {after : Scan}
    (hrun : (Reader.accept expected).run scan = .ok true after) :
    after.remaining.length < scan.remaining.length := by
  cases hstep : scan.accept? expected with
  | none =>
      rw [Reader.accept, run_accepts_none hstep] at hrun
      cases hrun
  | some between =>
      rw [Reader.accept, run_accepts_some hstep] at hrun
      cases hrun
      obtain ⟨hpeek, rfl⟩ : scan.peek = some expected ∧ scan.skip 1 = after := by
        simpa [Scan.accept?, Option.ite_none_right_eq_some] using hstep
      have hpos := Scan.length_pos_of_peek hpeek
      simp only [Scan.skip, List.length_drop]
      omega

section Separated

variable {item : Reader Value} {separator : Char}
variable (hrest : FollowedBy [':'] rest) (hseparator : separator ≠ ':')
variable (hitem : ∀ scan, CarriesOver rest item item scan)
variable (htreads : ∀ scan : Scan, Treads item scan.position scan)

include hrest hseparator hitem htreads

/-- The bound on the number of items is larger in place.  It is never reached as long as there are
no more separators than bytes. -/
theorem CarriesOver.separatedFrom {rounds roundsThere : Nat}
    (hrounds : scan.remaining.length ≤ rounds) (hle : rounds ≤ roundsThere) :
    CarriesOver rest (Reader.separatedFrom item separator rounds)
      (Reader.separatedFrom item separator roundsThere) scan := by
  have hmark (scan : Scan) : CarriesOver rest (Reader.accept separator) (Reader.accept separator)
      scan := carriesOver_accept hrest hseparator
  induction rounds generalizing scan roundsThere with
  | zero =>
      cases roundsThere with
      | zero => exact (hitem scan).map fun value => [value]
      | succ roundsThere =>
          refine (hitem scan).bind fun value after hvalue => ?_
          have hend : after.remaining.length = 0 := by
            have hlength := ((htreads scan).ok value after hvalue).length_le
            omega
          have hnone : (Reader.accept separator).run after = .ok false after := by
            apply run_accepts_none
            simp [Scan.accept?, Scan.peek, Scan.peekAt, List.length_eq_zero_iff.mp hend]
          intro result last hrun place hplace
          cases hrun
          obtain ⟨later, hlater, hgoes⟩ := hmark after false after hnone place hplace
          refine ⟨later, ?_, hgoes⟩
          rw [run_bind_of_ok hlater]
          rfl
  | succ rounds ih =>
      obtain ⟨roundsThere, rfl⟩ : ∃ fewer, roundsThere = fewer + 1 :=
        ⟨roundsThere - 1, by omega⟩
      refine (hitem scan).bind fun value after hvalue => ?_
      have hlength := ((htreads scan).ok value after hvalue).length_le
      refine (hmark after).bind fun found later hfound => ?_
      cases found with
      | false => exact CarriesOver.pure [value]
      | true =>
          have hshorter := length_lt_of_accept hfound
          have hothers := ih (by omega : later.remaining.length ≤ rounds)
            (Nat.le_of_succ_le_succ hle)
          exact hothers.map fun others => value :: others

theorem CarriesOver.separated :
    CarriesOver rest (Reader.separated item separator) (Reader.separated item separator) scan := by
  apply CarriesOver.get_bind
  intro place hplace
  apply CarriesOver.separatedFrom hrest hseparator hitem htreads (Nat.le_refl _)
  rw [hplace, List.length_append]
  exact Nat.le_add_right _ _

end Separated

/-! ## Whole texts -/

/-- The reader gives `value` for these bytes in front of `rest`, and stops there. -/
def ReadsInPlace (reader : Reader Value) (bytes : List UInt8) (value : Value)
    (rest : List UInt8) : Prop :=
  ∀ position, ∃ later, reader.run ⟨bytes ++ rest, position⟩ = .ok value ⟨rest, later⟩

/-- What a whole text is read as is read of it in place. -/
theorem CarriesOver.readAll {reader : Reader Value} {text : String} {value : Value}
    (hcarries : ∀ scan, CarriesOver rest reader reader scan)
    (hread : reader.readAll text = .ok value) : ReadsInPlace reader (bytesOf text) value rest := by
  obtain ⟨last, hrun⟩ := readAll_eq_ok_iff.mp hread
  intro position
  obtain ⟨⟨remaining, later⟩, hlater, hgoes⟩ :=
    hcarries _ value _ hrun ⟨bytesOf text ++ rest, position⟩ rfl
  obtain rfl : remaining = rest := hgoes
  exact ⟨later, hlater⟩

end Reader

end AchievementLogic
