import AchievementLogic.Memory.Image
import AchievementLogic.Proofs.Achievement.Restoring

/-!
# Going on from saved readings

Of what an operand has read, progress keeps the last two readings, and the earlier one of them is
taken for the last different one.  That is what it was if the two differ.  If they do not, the last
different reading is lost, and only an operand that shows it can tell: until it reads something else,
it shows its current reading in place of the one that was lost.
-/

namespace AchievementLogic

/-! ## Histories -/

namespace History

def after (history : History) (raws : List UInt32) : History := raws.foldl push history

/-- The history as the last two readings tell it. -/
def recalled (history : History) : History :=
  { current := history.current, previous := history.previous, prior := history.previous }

/-- The last reading was the same as the one before it, further readings repeat it, and before all
these there was another one. -/
structure Repeats (history : History) (raws : List UInt32) : Prop where
  previous : history.previous = history.current
  further : ∀ raw ∈ raws, raw = history.current
  prior : history.prior ≠ history.current

theorem after_cons (history : History) (raw : UInt32) (raws : List UInt32) :
    history.after (raw :: raws) = (history.push raw).after raws := rfl

/-- Readings that repeat the current one leave it and the last different one as they are. -/
theorem after_of_forall_eq {history : History} {raws : List UInt32}
    (hsame : ∀ raw ∈ raws, raw = history.current) :
    (history.after raws).current = history.current ∧
      (history.after raws).prior = history.prior := by
  induction raws generalizing history with
  | nil => exact ⟨rfl, rfl⟩
  | cons raw raws ih =>
      obtain ⟨rfl, hothers⟩ := List.forall_mem_cons.mp hsame
      have hprior : (history.push history.current).prior = history.prior := if_pos rfl
      rw [after_cons, ← hprior]
      exact ih hothers

/-- From the first different reading on, what was read before the current one does not matter. -/
theorem after_eq_of_exists_ne {left right : History} {raws : List UInt32}
    (hcurrent : left.current = right.current) (hchange : ∃ raw ∈ raws, raw ≠ left.current) :
    left.after raws = right.after raws := by
  induction raws generalizing left right with
  | nil => simp at hchange
  | cons raw raws ih =>
      rw [after_cons, after_cons]
      by_cases hsame : raw = left.current
      · obtain ⟨other, hmem, hother⟩ := hchange
        rcases List.mem_cons.mp hmem with rfl | hlater
        · exact absurd hsame hother
        · exact ih rfl ⟨other, hlater, by rwa [← hsame] at hother⟩
      · have hpush : left.push raw = right.push raw := by
          rw [push, push, if_neg hsame, if_neg (hcurrent ▸ hsame), hcurrent]
        rw [hpush]

/-- The last different reading is the one before the current one, unless these two are the same; and
it is another one than the current one, unless nothing but zeros was read. -/
theorem prior_after (raws : List UInt32) :
    ((after {} raws).previous ≠ (after {} raws).current →
        (after {} raws).prior = (after {} raws).previous) ∧
      ((after {} raws).prior = (after {} raws).current → after {} raws = {}) := by
  induction raws using List.reverseRecOn with
  | nil => exact ⟨fun _ => rfl, fun _ => rfl⟩
  | append_singleton raws raw ih =>
      have hlast : after {} (raws ++ [raw]) = (after {} raws).push raw := List.foldl_concat _ _ _ _
      obtain ⟨-, hzeros⟩ := ih
      rw [hlast]
      generalize after {} raws = history at hzeros
      by_cases hsame : raw = history.current
      · subst hsame
        refine ⟨fun hdifferent => absurd rfl hdifferent, fun hprior => ?_⟩
        rw [hzeros (by simpa [push] using hprior)]
        rfl
      · have hprior : (history.push raw).prior = history.current := if_neg hsame
        rw [hprior]
        exact ⟨fun _ => rfl, fun hcurrent => absurd hcurrent.symm hsame⟩

/-- Going on from the last two readings comes to the same as going on from all of them, unless the
last reading keeps repeating. -/
theorem after_recalled_of_not_repeats {earlier further : List UInt32}
    (hnew : ¬(after {} earlier).Repeats further) :
    (after {} earlier).recalled.after further = (after {} earlier).after further := by
  obtain ⟨hdifferent, hzeros⟩ := prior_after earlier
  generalize after {} earlier = history at hnew hdifferent hzeros
  by_cases hchange : ∃ raw ∈ further, raw ≠ history.current
  · exact after_eq_of_exists_ne rfl hchange
  · by_cases hprevious : history.previous = history.current
    · have hprior : history.prior = history.current := by
        by_contra hother
        exact hnew ⟨hprevious, by simpa using hchange, hother⟩
      rw [hzeros hprior]
      rfl
    · have hrecalled : history.recalled = history :=
        congrArg (History.mk history.current history.previous) (hdifferent hprevious).symm
      rw [hrecalled]

end History

/-! ## Operands -/

abbrev Move := Frame × UInt32

namespace Operand

def after (operand : Operand) (moves : List Move) : Operand :=
  moves.foldl (fun operand move => operand.advance move.1 move.2) operand

end Operand

namespace MemoryOperand

def readings (operand : MemoryOperand) (moves : List Move) : List UInt32 :=
  moves.map fun move => operand.size.read move.1 (operand.address + move.2)

end MemoryOperand

namespace Operand

theorem after_memory (operand : MemoryOperand) (moves : List Move) :
    (memory operand).after moves =
      memory { operand with history := operand.history.after (operand.readings moves) } := by
  induction moves generalizing operand with
  | nil => rfl
  | cons move moves ih =>
      have hnext := ih (operand.advance move.1 move.2)
      exact hnext

theorem visible_after {left right : Operand} (hvisible : left.visible = right.visible)
    (moves : List Move) : (left.after moves).visible = (right.after moves).visible := by
  induction moves generalizing left right with
  | nil => exact hvisible
  | cons move moves ih =>
      apply ih
      rw [← left.visible_advance, hvisible, right.visible_advance]

/-- An operand that goes on from the saved readings of another one shows what that one shows.  The
exception is an operand that shows the last different reading while its last reading keeps repeating:
then it shows that reading, and the other one shows the different one. -/
theorem value_after_restoreReadings (access : Access) (size : ReadSize) (address : UInt32)
    (before later : List Move) :
    let operand : MemoryOperand := { access, size, address }
    let saved := (memory operand).after before
    let restored := (memory operand).restoreReadings saved.savedReadings.1 saved.savedReadings.2
    let history := History.after {} (operand.readings before)
    (¬(access = .prior ∧ history.Repeats (operand.readings later)) →
      (restored.after later).value = (saved.after later).value) ∧
    (access = .prior ∧ history.Repeats (operand.readings later) →
      (restored.after later).value = operand.decode history.current ∧
        (saved.after later).value = operand.decode history.prior) := by
  intro operand saved restored history
  have hsaved : saved = memory { operand with history } := after_memory operand before
  have hrestored : restored = memory { operand with history := history.recalled } := by
    simp only [restored, hsaved]
    rfl
  have hsavedLater : saved.after later =
      memory { operand with history := history.after (operand.readings later) } := by
    rw [hsaved, after_memory]
    rfl
  have hrestoredLater : restored.after later =
      memory { operand with history := history.recalled.after (operand.readings later) } := by
    rw [hrestored, after_memory]
    rfl
  constructor
  · intro hshown
    by_cases haccess : access = .prior
    · have hnew : ¬history.Repeats (operand.readings later) := fun hrepeats =>
        hshown ⟨haccess, hrepeats⟩
      rw [hsavedLater, hrestoredLater, History.after_recalled_of_not_repeats hnew]
    · have hhidden : saved.showsPrior = false := by
        rw [hsaved]
        simpa [showsPrior] using haccess
      have hrecalled : restored = saved.recalled := by
        rw [hrestored, hsaved]
        rfl
      have hvisible : restored.visible = saved.visible := by
        rw [hrecalled, visible_recalled hhidden]
      rw [← value_visible, visible_after hvisible, value_visible]
  · rintro ⟨rfl, hrepeats⟩
    have hprior : (history.after (operand.readings later)).prior = history.prior :=
      (History.after_of_forall_eq hrepeats.further).2
    have hfurther : ∀ raw ∈ operand.readings later, raw = history.recalled.current := hrepeats.further
    have hrecalled : (history.recalled.after (operand.readings later)).prior = history.previous :=
      (History.after_of_forall_eq hfurther).2
    rw [hrepeats.previous] at hrecalled
    rw [hsavedLater, hrestoredLater]
    exact ⟨congrArg operand.decode hrecalled, congrArg operand.decode hprior⟩

/-- A byte that is 1 on one frame and 2 on the next ones. -/
def turningByte (count : Nat) : List Move :=
  ({ source := (Image.ofBytes [1]).source }, 0) ::
    List.replicate count ({ source := (Image.ofBytes [2]).source }, 0)

/-- The byte at an address. -/
def byteAt (access : Access) (address : UInt32) : Operand :=
  memory { access, size := .byte, address }

theorem value_after_restoreReadings_turningByte :
    let saved (access : Access) := (byteAt access 0).after (turningByte 2)
    let restored (access : Access) := (byteAt access 0).restoreReadings
      (saved access).savedReadings.1 (saved access).savedReadings.2
    let later := (turningByte 2).drop 1
    ((restored .delta).after later).value = ((saved .delta).after later).value ∧
      ((restored .prior).after later).value = .word 2 ∧
      ((saved .prior).after later).value = .word 1 := by
  have hfurther : ∀ raw ∈ ([2, 2] : List UInt32), raw = 2 := by simp
  have hdelta := (value_after_restoreReadings .delta .byte 0 (turningByte 2)
    ((turningByte 2).drop 1)).1 (fun hshown => by simp at hshown)
  have hprior := (value_after_restoreReadings .prior .byte 0 (turningByte 2)
    ((turningByte 2).drop 1)).2 ⟨rfl, ⟨rfl, hfurther, by decide⟩⟩
  exact ⟨hdelta, hprior.1, hprior.2⟩

/-- Saved after two frames with a 2, the operand forgets the 1 before them and shows a 2 instead. -/
theorem not_forall_value_after_restoreReadings :
    ¬∀ (access : Access) (size : ReadSize) (address : UInt32) (before later : List Move),
      let operand := memory { access, size, address }
      let saved := operand.after before
      ((operand.restoreReadings saved.savedReadings.1 saved.savedReadings.2).after later).value =
        (saved.after later).value := by
  intro hall
  have hsame := hall .prior .byte 0 (turningByte 2) ((turningByte 2).drop 1)
  have hword : (2 : UInt32) = 1 := Value.word.inj hsame
  exact absurd hword (by decide)

end Operand

end AchievementLogic
