import AchievementLogic.Proofs.Trigger.OperandReading

/-!
# Reading triggers as they are spelled

Every spelling of a trigger is read as that trigger.  Each part is read in front of what can follow
it: an operand in front of a comparison, of a hit target or of the end of its condition, and a
condition in front of a separator, of a colon or of nothing.
-/

namespace AchievementLogic

open Text Reader Comparison

/-! ## What follows an operand -/

/-- A condition is followed by a separator, by a colon or by nothing. -/
abbrev EndsCondition (rest : List UInt8) : Prop := FollowedBy ['_', 'S', ':'] rest

theorem FollowedBy.endsOperand {letters : List Char} {rest : List UInt8}
    (hrest : FollowedBy letters rest)
    (hletters : ∀ letter ∈ letters, digitValue? 16 letter = none ∧ letter ≠ 'x' ∧ letter ≠ 'X') :
    EndsOperand rest :=
  fun byte hmem => hletters _ (hrest byte hmem)

/-! ## Comparisons and hit targets -/

theorem Comparison.Spells.followedBy {sign : List UInt8} {comparison : Comparison}
    (hspells : Comparison.Spells sign comparison) (rest : List UInt8) :
    FollowedBy ['=', '!', '<', '>'] (sign ++ rest) := by
  cases hspells with
  | mark => cases comparison <;> exact .cons (by decide) _
  | twice => exact .cons (by decide) _

/-- Three comparisons have one sign, if no `=` comes after it. -/
theorem Comparison.ofMarks?_single {next? : Option Char} (hnext : next? ≠ some '=') :
    ofMarks? (some '=') next? = some (.equal, 1) ∧ ofMarks? (some '<') next? = some (.less, 1) ∧
      ofMarks? (some '>') next? = some (.greater, 1) := by
  unfold ofMarks?
  refine ⟨?_, ?_, ?_⟩
  all_goals split <;> simp_all

/-- What spells a comparison is read as it, unless a further `=` would be taken with it. -/
theorem Comparison.Spells.reads {sign rest : List UInt8} {comparison : Comparison}
    (hspells : Comparison.Spells sign comparison)
    (hrest : ∀ byte ∈ rest.head?, Char.ofUInt8 byte ≠ '=') :
    Reads Comparison.read? sign (some comparison) rest := by
  refine Reads.get_bind fun position => ?_
  have hmarks : ofMarks? (Scan.peek ⟨sign ++ rest, position⟩)
      (Scan.peekAt ⟨sign ++ rest, position⟩ 1) = some (comparison, sign.length) := by
    have hnext : rest.head?.map Char.ofUInt8 ≠ some '=' := by
      cases rest with
      | nil => simp
      | cons byte others => simpa using hrest byte (by simp)
    obtain ⟨hequal, hless, hgreater⟩ := ofMarks?_single hnext
    cases hspells with
    | mark =>
        rw [List.head?_eq_getElem?] at hequal hless hgreater
        cases comparison
        · exact hequal
        · rfl
        · exact hless
        · rfl
        · exact hgreater
        · rfl
    | twice => rfl
  rw [hmarks]
  exact (Reads.skip sign rest).map fun _ => some comparison

theorem Comparison.reads_none {rest : List UInt8} {letters : List Char}
    (hrest : FollowedBy letters rest)
    (hletters : ∀ letter ∈ letters, letter ≠ '=' ∧ letter ≠ '!' ∧ letter ≠ '<' ∧ letter ≠ '>') :
    Reads Comparison.read? [] none rest := by
  refine Reads.get_bind fun position => ?_
  have hmarks (next? : Option Char) :
      ofMarks? (Scan.peek ⟨[] ++ rest, position⟩) next? = none := by
    cases rest with
    | nil => rfl
    | cons byte others =>
        have hletter := hletters _ (hrest byte (by simp))
        simp only [List.nil_append, Scan.peek_cons]
        unfold ofMarks?
        split <;> simp_all
  rw [hmarks]
  exact Reads.pure none rest

theorem Condition.reads_readUpTo {opening closing : UInt8} {close : Char}
    (hclose : Char.ofUInt8 closing = close) (hdigit : digitValue? 10 close = none)
    {bytes : List UInt8} {hits : UInt32} (hword : SpellsWord 10 bytes hits) (rest : List UInt8)
    (start : Nat) :
    Reads (readHits.readUpTo start close) (opening :: (bytes ++ [closing])) hits rest := by
  have hends : EndsDigits 10 (closing :: rest) := by
    intro byte hmem
    obtain rfl : closing = byte := by simpa using hmem
    rw [hclose, hdigit]
  have hcount : Reads (Reader.require Scan.readUnsigned .noHitCount start) bytes hits
      (closing :: rest) := fun position =>
    run_require (hword.readDigits (by decide) hends position) _ _
  refine Reads.skip_one (hcount.bind ?_) opening
  rw [← List.append_nil [closing]]
  exact (Reads.accept hclose ([] ++ rest)).bind (Reads.pure hits rest)

theorem SpellsHits.followedBy {count rest : List UInt8} {hits : UInt32}
    (hspells : SpellsHits count hits) (hrest : EndsCondition rest) :
    FollowedBy ['(', '.', '_', 'S', ':'] (count ++ rest) := by
  cases hspells with
  | none => exact hrest.mono (by simp)
  | round => exact .cons (by decide) _
  | dotted => exact .cons (by decide) _

/-- A hit target is read from either pair of marks, and is zero where neither opens. -/
theorem SpellsHits.reads {count rest : List UInt8} {hits : UInt32}
    (hspells : SpellsHits count hits) (hrest : EndsCondition rest) :
    Reads Condition.readHits count hits rest := by
  refine Reads.position_bind fun start => Reads.peek_bind ?_
  cases hspells with
  | none =>
      cases rest with
      | nil => exact Reads.pure 0 []
      | cons byte others =>
          have hbyte := hrest byte (by simp)
          simp only [List.mem_cons, List.not_mem_nil, or_false] at hbyte
          simp only [List.nil_append, List.head?_cons, Option.map_some]
          rcases hbyte with hbyte | hbyte | hbyte
          all_goals
            rw [hbyte]
            exact Reads.pure 0 _
  | round hword => exact Condition.reads_readUpTo rfl (by decide) hword rest start
  | dotted hword => exact Condition.reads_readUpTo rfl (by decide) hword rest start

/-! ## Roles -/

theorem Role.Spells.reads_letter {letter : UInt8} {role : Role}
    (hrole : Role.ofLetter? (Char.ofUInt8 letter) = some role) (rest : List UInt8) :
    Reads Role.read [letter, ':'.toUInt8] role rest := by
  refine Reads.get_bind fun position => ?_
  have hpeek : Scan.peek ⟨[letter, ':'.toUInt8] ++ rest, position⟩ =
      some (Char.ofUInt8 letter) := rfl
  have hcolon : Scan.peekAt ⟨[letter, ':'.toUInt8] ++ rest, position⟩ 1 = some ':' := rfl
  rw [hpeek, hcolon]
  simp only [hrole]
  exact (Reads.skip [letter, ':'.toUInt8] rest).map fun _ => role

/-- Without a colon in second place no letter is read. -/
theorem Role.Spells.reads_standard {rest : List UInt8}
    (hcolon : ∀ byte ∈ rest[1]?, Char.ofUInt8 byte ≠ ':') :
    Reads Role.read [] (.check .standard) rest := by
  refine Reads.get_bind fun position => ?_
  have hnext : Scan.peekAt ⟨[] ++ rest, position⟩ 1 ≠ some ':' := by
    rw [List.nil_append, Scan.peekAt, ne_eq, Option.map_eq_some_iff]
    rintro ⟨byte, hbyte, heq⟩
    exact hcolon byte hbyte heq
  generalize Scan.peekAt ⟨[] ++ rest, position⟩ 1 = next? at hnext
  generalize Scan.peek ⟨[] ++ rest, position⟩ = first?
  split
  · exact absurd rfl hnext
  · exact Reads.pure _ rest

/-! ## Conditions -/

/-- After an operand the second byte is no colon, unless one follows the operand. -/
theorem AreOperandBytes.second_ne_colon {bytes rest : List UInt8} (hbytes : AreOperandBytes bytes)
    (hrest : ∀ byte ∈ rest.head?, Char.ofUInt8 byte ≠ ':') :
    ∀ byte ∈ (bytes ++ rest)[1]?, Char.ofUInt8 byte ≠ ':' := by
  intro byte hmem
  match bytes, hbytes.ne_nil with
  | [first], _ =>
      apply hrest byte
      simpa [List.head?_eq_getElem?] using hmem
  | first :: second :: others, _ =>
      obtain rfl : second = byte := by simpa using hmem
      exact (hbytes.all second (by simp)).1

theorem AreOperandBytes.head_ne_equal {bytes : List UInt8} (hbytes : AreOperandBytes bytes)
    (rest : List UInt8) : ∀ byte ∈ (bytes ++ rest).head?, Char.ofUInt8 byte ≠ '=' := by
  intro byte hmem
  obtain ⟨first, others, rfl⟩ := List.exists_cons_of_ne_nil hbytes.ne_nil
  obtain rfl : first = byte := by simpa using hmem
  exact (hbytes.all first (by simp)).2

theorem Operand.Spells.areOperandBytes {bytes : List UInt8} {operand : Operand}
    (hspells : Operand.Spells bytes operand) : AreOperandBytes bytes := by
  obtain ⟨first, others, hbytes, -⟩ := hspells.exists_cons
  exact ⟨by simp [hbytes], hspells.isOperandByte⟩

theorem Role.Spells.reads {mark rest : List UInt8} {role : Role} (hspells : Role.Spells mark role)
    (hcolon : ∀ byte ∈ rest[1]?, Char.ofUInt8 byte ≠ ':') : Reads Role.read mark role rest := by
  cases hspells with
  | standard => exact Role.Spells.reads_standard hcolon
  | letter hrole => exact Role.Spells.reads_letter hrole rest

/-- After two operands and the comparison between them only the hit target is read. -/
theorem Condition.leads_compared {mark left sign right rest : List UInt8} {role : Role}
    {source target : Operand} {comparison : Comparison} (hrole : Role.Spells mark role)
    (hleft : AreOperandBytes left)
    (hsource : Reads Operand.read left source (sign ++ (right ++ rest)))
    (hcomparison : Comparison.Spells sign comparison)
    (hright : AreOperandBytes right) (htarget : Reads Operand.read right target rest) :
    Leads Condition.read (mark ++ (left ++ (sign ++ right)))
      (do return { role, source, comparison? := some comparison, target,
                   requiredHits := ← readHits }) rest := by
  have hsign : FollowedBy ['=', '!', '<', '>'] (sign ++ (right ++ rest)) :=
    hcomparison.followedBy _
  have hcolon : ∀ byte ∈ (left ++ (sign ++ (right ++ rest)))[1]?, Char.ofUInt8 byte ≠ ':' :=
    hleft.second_ne_colon (hsign.ne (by decide))
  have hmark : Reads Role.read mark role (left ++ (sign ++ right) ++ rest) := by
    rw [List.append_assoc, List.append_assoc]
    exact hrole.reads hcolon
  have hfirst : Reads Operand.read left source (sign ++ right ++ rest) := by
    rw [List.append_assoc]
    exact hsource
  refine Leads.bind hmark (Leads.bind hfirst (Leads.position_bind fun _ => ?_))
  exact Leads.bind (hcomparison.reads (hright.head_ne_equal rest)) (Leads.of_reads htarget _)

/-- After a modifier without a comparison only the hit target is read. -/
theorem Condition.leads_alone {mark left rest : List UInt8} {role : Role} {source : Operand}
    (hrole : Role.Spells mark role) (hmodifier : role.isModifier = true)
    (hsource : Reads Operand.read left source rest)
    (hrest : FollowedBy ['(', '.', '_', 'S', ':'] rest) :
    Leads Condition.read (mark ++ left)
      (do return { role, source, comparison? := none, target := default,
                   requiredHits := ← readHits }) rest := by
  have hmark : Reads Role.read mark role (left ++ [] ++ rest) := by
    cases hrole with
    | standard => cases hmodifier
    | letter hrole => exact Role.Spells.reads_letter hrole _
  have hnone : Reads Comparison.read? [] none rest := Comparison.reads_none hrest (by simp)
  rw [← List.append_nil left]
  refine Leads.bind hmark (Leads.bind hsource (Leads.position_bind fun _ position => ?_))
  rw [run_bind_of_ok (hnone position)]
  simp only [hmodifier, if_true]

/-- What spells a condition is read as it, in front of a further one, of a further group, of a colon
or at the end. -/
theorem Condition.Spells.reads {bytes rest : List UInt8} {condition : Condition}
    (hspells : Condition.Spells bytes condition) (hrest : EndsCondition rest) :
    Reads Condition.read bytes condition rest := by
  cases hspells with
  | @compared mark left sign right count role source target comparison requiredHits hrole hsource
      hcomparison htarget hhits =>
      have hcount := hhits.followedBy hrest
      have hsign := hcomparison.followedBy (right ++ (count ++ rest))
      have hleads := Condition.leads_compared hrole hsource.areOperandBytes
        (hsource.reads (hsign.endsOperand (by simp [digitValue?]))) hcomparison
        htarget.areOperandBytes (htarget.reads (hcount.endsOperand (by simp [digitValue?])))
      have hread := hleads.reads ((hhits.reads hrest).map fun requiredHits =>
        ({ role, source, comparison? := some comparison, target, requiredHits } : Condition))
      simpa only [List.append_assoc] using hread
  | @alone mark left count role source requiredHits hrole hmodifier hsource hhits =>
      have hcount := hhits.followedBy hrest
      have hleads := Condition.leads_alone hrole hmodifier
        (hsource.reads (hcount.endsOperand (by simp [digitValue?]))) hcount
      have hread := hleads.reads ((hhits.reads hrest).map fun requiredHits =>
        ({ role, source, comparison? := none, target := default, requiredHits } : Condition))
      simpa only [List.append_assoc] using hread

/-! ## Groups and triggers -/

/-- What spells a group is read as it; nothing at all spells the empty one. -/
theorem Group.Spells.reads {bytes rest : List UInt8} {group : Group}
    (hspells : Group.Spells bytes group) (hrest : FollowedBy ['S', ':'] rest) :
    Reads Group.read bytes group rest := by
  refine Reads.peek_bind ?_
  cases hspells with
  | empty =>
      cases rest with
      | nil => exact Reads.pure _ []
      | cons byte others =>
          have hbyte := hrest byte (by simp)
          simp only [List.mem_cons, List.not_mem_nil, or_false] at hbyte
          simp only [List.nil_append, List.head?_cons, Option.map_some]
          rcases hbyte with hbyte | hbyte
          all_goals
            rw [hbyte]
            exact Reads.pure _ _
  | joined hconditions =>
      obtain ⟨first, others, hbytes, hgroup, hcolon⟩ :
          ∃ first others, bytes = first :: others ∧ Char.ofUInt8 first ≠ 'S' ∧
            Char.ofUInt8 first ≠ ':' := by
        cases hconditions with
        | single hspells => exact hspells.exists_cons
        | cons hspells hothers =>
            obtain ⟨first, others, rfl, hne⟩ := hspells.exists_cons
            exact ⟨first, _, rfl, hne⟩
      have hitem {bytes : List UInt8} {condition : Condition} {after : List UInt8}
          (hcondition : Condition.Spells bytes condition)
          (hafter : after = rest ∨ after.head? = some '_'.toUInt8) :
          Reads Condition.read bytes condition after := by
        apply hcondition.reads
        rcases hafter with rfl | hmark
        · exact hrest.mono (by simp)
        · intro byte hmem
          obtain rfl : '_'.toUInt8 = byte := Option.some.inj (hmark.symm.trans hmem)
          decide
      have hread := (reads_separated rfl hitem (hrest.ne (by decide)) hconditions).map Group.mk
      have hhead : (bytes ++ rest).head?.map Char.ofUInt8 = some (Char.ofUInt8 first) := by
        rw [hbytes]
        rfl
      rw [hhead]
      split
      · cases ‹some (Char.ofUInt8 first) = none›
      · exact absurd (Option.some.inj ‹_›) hgroup
      · exact absurd (Option.some.inj ‹_›) hcolon
      · exact hread

/-- Every spelling of a trigger is read as that trigger. -/
theorem Trigger.Spells.reads {bytes rest : List UInt8} {trigger : Trigger}
    (hspells : Trigger.Spells bytes trigger) (hrest : FollowedBy [':'] rest) :
    Reads Trigger.read bytes trigger rest := by
  cases hspells with
  | joined hgroups =>
      have hitem {bytes : List UInt8} {group : Group} {after : List UInt8}
          (hgroup : Group.Spells bytes group)
          (hafter : after = rest ∨ after.head? = some 'S'.toUInt8) :
          Reads Group.read bytes group after := by
        apply hgroup.reads
        rcases hafter with rfl | hmark
        · exact hrest.mono (by simp)
        · intro byte hmem
          obtain rfl : 'S'.toUInt8 = byte := Option.some.inj (hmark.symm.trans hmem)
          decide
      exact (reads_separated rfl hitem (hrest.ne (by decide)) hgroups).map Trigger.ofGroups

end AchievementLogic
