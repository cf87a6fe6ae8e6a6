import AchievementLogic.Proofs.Score.Alphabet
import AchievementLogic.Proofs.Trigger.InPlace

/-!
# Formulas in place

Clauses and formulas are read in front of a colon as they are read of a text of their own: a colon is
neither the mark of a factor nor one that joins clauses.
-/

namespace AchievementLogic

open Text Reader

variable {rest : List UInt8} {scan : Scan}

/-! ## The parts of a clause -/

namespace Clause

theorem carriesOver_readFactor (hrest : FollowedBy [':'] rest) :
    CarriesOver rest readFactor readFactor scan := by
  apply CarriesOver.get_bind
  intro place hplace
  rw [hplace.hasHexMarkAt hrest (Nat.zero_le _)]
  split
  case isTrue =>
    refine (Operand.carriesOver_read hrest).bind fun operand after _ => ?_
    split
    · exact CarriesOver.pure _
    · exact CarriesOver.fail _ _ _
  case isFalse => exact (CarriesOver.require (Scan.carriesOver_readFloat hrest scan) _ _ _).map _

theorem carriesOver_readProduct (hrest : FollowedBy [':'] rest) (clause : Clause) :
    CarriesOver rest (readProduct clause) (readProduct clause) scan := by
  refine (carriesOver_accept hrest (by decide)).bind fun found after _ => ?_
  cases found with
  | false => exact CarriesOver.pure clause
  | true =>
      refine (carriesOver_accept hrest (by decide)).bind fun inverted later _ => ?_
      exact (carriesOver_readFactor hrest).map _

theorem carriesOver_readMarked (hrest : FollowedBy [':'] rest) (joining : Joining)
    (bcd marked : Bool) (start startThere : Nat) :
    CarriesOver rest (readMarked joining bcd marked start)
      (readMarked joining bcd marked startThere) scan := by
  refine (Operand.carriesOver_read hrest).bind fun operand after _ => ?_
  split
  · exact carriesOver_readProduct hrest _
  · exact carriesOver_readProduct hrest _
  · exact CarriesOver.fail _ _ _

theorem carriesOver_read (hrest : FollowedBy [':'] rest) (joining : Joining) :
    CarriesOver rest (read joining) (read joining) scan := by
  rw [read_eq]
  refine CarriesOver.position_bind fun start startThere => CarriesOver.peek_bind hrest ?_ rfl
  split
  case isTrue hmark =>
    obtain ⟨letter, hpeek, -⟩ := isLegible_of_isMark hmark
    exact CarriesOver.skip_one (carriesOver_readMarked hrest joining _ _ start startThere) hpeek
  case isFalse => exact carriesOver_readMarked hrest joining _ _ start startThere

end Clause

/-! ## Formulas -/

theorem Joining.carriesOver_read? (hrest : FollowedBy [':'] rest) :
    CarriesOver rest read? read? scan := by
  refine (carriesOver_accept hrest (by decide)).bind fun added after _ => ?_
  cases added with
  | true => exact CarriesOver.pure _
  | false =>
      refine (carriesOver_accept hrest (by decide)).bind fun larger later _ => ?_
      cases larger with
      | true => exact CarriesOver.pure _
      | false => exact CarriesOver.pure _

theorem Joining.run_read? (scan : Scan) :
    read?.run scan =
      if scan.peek = some '_' then .ok (some addition) (scan.skip 1)
      else if scan.peek = some '$' then .ok (some maximum) (scan.skip 1)
      else .ok none scan := by
  have htaken {letter : Char} (hpeek : scan.peek = some letter) :
      (Reader.accept letter).run scan = .ok true (scan.skip 1) :=
    run_accepts_some (by rw [Scan.accept?, if_pos hpeek])
  have hleft {letter : Char} (hpeek : scan.peek ≠ some letter) :
      (Reader.accept letter).run scan = .ok false scan :=
    run_accepts_none (by rw [Scan.accept?, if_neg hpeek])
  by_cases hadded : scan.peek = some '_'
  · rw [if_pos hadded, read?, run_bind_of_ok (htaken hadded)]
    rfl
  · rw [if_neg hadded, read?, run_bind_of_ok (hleft hadded)]
    by_cases hlarger : scan.peek = some '$'
    · rw [if_pos hlarger]
      simp only [Bool.false_eq_true, if_false]
      rw [run_bind_of_ok (htaken hlarger)]
      rfl
    · rw [if_neg hlarger]
      simp only [Bool.false_eq_true, if_false]
      rw [run_bind_of_ok (hleft hlarger)]
      rfl

/-- A joining is stepped over, so that what is left is shorter. -/
theorem Joining.length_lt_of_read? {joining : Joining} {after : Scan}
    (hrun : read?.run scan = .ok (some joining) after) :
    after.remaining.length < scan.remaining.length := by
  have hskip {letter : Char} (hpeek : scan.peek = some letter) :
      (scan.skip 1).remaining.length < scan.remaining.length := by
    have hpos := Scan.length_pos_of_peek hpeek
    simp only [Scan.skip, List.length_drop]
    omega
  rw [run_read?] at hrun
  split at hrun
  case isTrue hpeek =>
    cases hrun
    exact hskip hpeek
  case isFalse =>
    split at hrun
    case isTrue hpeek =>
      cases hrun
      exact hskip hpeek
    case isFalse => cases hrun

namespace Formula

/-- As with items between separators, the bound is larger in place and never reached. -/
theorem carriesOver_readFrom (hrest : FollowedBy [':'] rest) (joining : Joining)
    {rounds roundsThere : Nat} (hrounds : scan.remaining.length ≤ rounds)
    (hle : rounds ≤ roundsThere) :
    CarriesOver rest (readFrom joining rounds) (readFrom joining roundsThere) scan := by
  induction rounds generalizing scan joining roundsThere with
  | zero =>
      cases roundsThere with
      | zero => exact (Clause.carriesOver_read hrest joining).map fun clause => [clause]
      | succ roundsThere =>
          refine (Clause.carriesOver_read hrest joining).bind fun clause after hclause => ?_
          have hend : after.remaining.length = 0 := by
            have hlength :=
              ((Clause.treads_read joining (Nat.le_refl _)).ok clause after hclause).length_le
            omega
          have hnone : Joining.read?.run after = .ok none after := by
            have hpeek : after.peek = none := by
              simp [Scan.peek, Scan.peekAt, List.length_eq_zero_iff.mp hend]
            simp [Joining.run_read?, hpeek]
          intro result last hrun place hplace
          cases hrun
          obtain ⟨later, hlater, hgoes⟩ :=
            Joining.carriesOver_read? hrest none after hnone place hplace
          refine ⟨later, ?_, hgoes⟩
          rw [run_bind_of_ok hlater]
          rfl
  | succ rounds ih =>
      obtain ⟨roundsThere, rfl⟩ : ∃ fewer, roundsThere = fewer + 1 :=
        ⟨roundsThere - 1, by omega⟩
      refine (Clause.carriesOver_read hrest joining).bind fun clause after hclause => ?_
      have hlength := ((Clause.treads_read joining (Nat.le_refl _)).ok clause after hclause).length_le
      refine (Joining.carriesOver_read? hrest).bind fun next? later hnext => ?_
      cases next? with
      | none => exact CarriesOver.pure [clause]
      | some next =>
          have hshorter := Joining.length_lt_of_read? hnext
          have hothers := ih next (by omega : later.remaining.length ≤ rounds)
            (Nat.le_of_succ_le_succ hle)
          exact hothers.map fun others => clause :: others

/-- Before letters that are no fillers there are none. -/
theorem fillers_eq_nil {letters : List Char} {bytes : List UInt8}
    (hbytes : FollowedBy letters bytes) (hletters : ∀ letter ∈ letters, isFiller letter = false) :
    fillers bytes = [] := by
  cases bytes with
  | nil => rfl
  | cons byte others =>
      have hfiller := hletters _ (hbytes byte rfl)
      rw [fillers, List.takeWhile_cons_of_neg (by rw [hfiller]; decide)]

theorem fillers_append (hrest : FollowedBy [':'] rest) (bytes : List UInt8) :
    fillers (bytes ++ rest) = fillers bytes := by
  have hnone : fillers rest = [] := fillers_eq_nil hrest (by simp [isFiller])
  rw [fillers, List.takeWhile_append]
  split
  case isTrue hall =>
    have hsame := (fillers_prefix_self bytes).eq_of_length hall
    rw [← fillers, hnone, List.append_nil, hsame]
  case isFalse => rfl

/-- A text without fillers whose clauses are read to its end is read as a formula. -/
theorem readAll_of_reads_clauses {text : String} {formula : Formula}
    (hfillers : fillers (bytesOf text) = [])
    (hclauses : Reads readClauses (bytesOf text) formula []) :
    read.readAll text = .ok formula := by
  apply readAll_of_reads
  intro position
  rw [run_read, List.append_nil, hfillers]
  have hrun := hclauses position
  rwa [List.append_nil] at hrun

theorem carriesOver_readClauses (hrest : FollowedBy [':'] rest) :
    CarriesOver rest readClauses readClauses scan := by
  apply CarriesOver.get_bind
  intro place hplace
  have hle : scan.remaining.length ≤ place.remaining.length := by
    rw [hplace, List.length_append]
    exact Nat.le_add_right _ _
  exact (carriesOver_readFrom hrest .first (Nat.le_refl _) hle).map _

theorem carriesOver_read (hrest : FollowedBy [':'] rest) :
    CarriesOver rest read read scan := by
  intro formula after hrun place hplace
  rw [run_read] at hrun
  have hlength := (fillers_prefix_self scan.remaining).length_le
  obtain ⟨later, hlater, hgoes⟩ :=
    carriesOver_readClauses hrest formula after hrun _ (hplace.skip hlength)
  refine ⟨later, ?_, hgoes⟩
  rw [run_read, hplace, fillers_append hrest, hlater]

end Formula

end AchievementLogic
