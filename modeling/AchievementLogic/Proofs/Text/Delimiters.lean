import AchievementLogic.Proofs.Text.Bytes
import AchievementLogic.Text.Fields
import Mathlib.Data.List.Infix

/-!
# Colons and line ends

Two colons delimit free text, and line ends after a text do not count.  Both are looked for among
bytes in one place and among letters in another; a byte below 128 is never a part of another letter,
so that it comes to the same.
-/

namespace AchievementLogic.Text

theorem mem_bytesOf_of_mem_toList {letter : Char} {text : String} (hmem : letter ∈ text.toList)
    (hascii : letter.toNat < 128) : letter.toUInt8 ∈ bytesOf text := by
  rw [bytesOf_eq_flatMap]
  refine List.mem_flatMap.mpr ⟨letter, hmem, ?_⟩
  rw [utf8EncodeChar_of_ascii hascii]
  exact List.mem_singleton.mpr rfl

/-! ## Colons -/

def HasColons (text : String) : Prop := [':', ':'] <:+: text.toList

def EndsInColon (text : String) : Prop := text.toList.getLast? = some ':'

instance (text : String) : Decidable (HasColons text) := inferInstanceAs (Decidable (_ <:+: _))

instance (text : String) : Decidable (EndsInColon text) := inferInstanceAs (Decidable (_ = _))

/-- A pair of bytes does not begin in a part that lacks the first of them. -/
theorem infix_of_infix_append {first second : UInt8} {left right : List UInt8}
    (hleft : first ∉ left) (hpair : [first, second] <:+: left ++ right) :
    [first, second] <:+: right := by
  induction left with
  | nil => exact hpair
  | cons head tail ih =>
      rw [List.cons_append, List.infix_cons_iff] at hpair
      rcases hpair with hprefix | hlater
      · obtain rfl : first = head := (List.cons_prefix_cons.mp hprefix).1
        exact absurd List.mem_cons_self hleft
      · exact ih (fun hmem => hleft (List.mem_cons_of_mem _ hmem)) hlater

/-- Two colons among the bytes are two letters. -/
theorem hasColons_of_infix_bytesOf {text : String} (hpair : [58, 58] <:+: bytesOf text) :
    HasColons text := by
  rw [HasColons]
  rw [bytesOf_eq_flatMap] at hpair
  generalize text.toList = letters at hpair ⊢
  induction letters with
  | nil => simp at hpair
  | cons letter others ih =>
      have hlater (hothers : [58, 58] <:+: others.flatMap String.utf8EncodeChar) :
          [':', ':'] <:+: letter :: others :=
        (ih hothers).trans (List.suffix_cons _ _).isInfix
      rw [List.flatMap_cons] at hpair
      by_cases hcolon : letter = ':'
      · have hbyte : String.utf8EncodeChar letter = [58] := by
          rw [hcolon]
          rfl
        rw [hbyte, List.singleton_append, List.infix_cons_iff] at hpair
        rcases hpair with hprefix | hothers
        · obtain ⟨more, hmore⟩ := (List.cons_prefix_cons.mp hprefix).2
          have hnext : (others.flatMap String.utf8EncodeChar).head? = some 58 := by
            rw [← hmore]
            rfl
          obtain ⟨second, later, rfl⟩ : ∃ second later, others = second :: later := by
            cases others with
            | nil => cases hnext
            | cons second later => exact ⟨second, later, rfl⟩
          rw [List.flatMap_cons, List.head?_append_of_ne_nil _ String.utf8EncodeChar_ne_nil] at hnext
          have hsecond := ofUInt8_of_mem_utf8EncodeChar (List.mem_of_head? hnext) (by decide)
          rw [hcolon, ← hsecond]
          exact (List.prefix_append [':', ':'] later).isInfix
        · exact hlater hothers
      · have hnot : 58 ∉ String.utf8EncodeChar letter := by
          intro hmem
          exact hcolon (ofUInt8_of_mem_utf8EncodeChar hmem (by decide)).symm
        exact hlater (infix_of_infix_append hnot hpair)

/-- Two letters are two colons among the bytes. -/
theorem infix_bytesOf_of_hasColons {text : String} (hcolons : HasColons text) :
    [58, 58] <:+: bytesOf text := by
  obtain ⟨front, later, hletters⟩ := hcolons
  rw [bytesOf_eq_flatMap, ← hletters, List.flatMap_append, List.flatMap_append]
  exact ⟨_, _, rfl⟩

theorem endsInColon_iff {text : String} :
    EndsInColon text ↔ (bytesOf text).getLast? = some 58 := by
  rw [EndsInColon, bytesOf_eq_flatMap]
  rcases List.eq_nil_or_concat' text.toList with hnil | ⟨front, last, hletters⟩
  · simp [hnil]
  · rw [hletters, List.getLast?_concat, List.flatMap_append, List.flatMap_singleton]
    rw [List.getLast?_append_of_ne_nil _ String.utf8EncodeChar_ne_nil]
    constructor
    · intro hcolon
      rw [Option.some.inj hcolon]
      rfl
    · intro hbyte
      rw [← ofUInt8_of_mem_utf8EncodeChar (List.mem_of_getLast? hbyte) (by decide)]
      rfl

/-- A colon among the bytes is a letter, and what stands before and after it are texts. -/
theorem exists_append_of_bytesOf_colon {text : String} {front back : List UInt8}
    (hbytes : bytesOf text = front ++ 58 :: back) :
    ∃ left right : String, text = left ++ ":" ++ right ∧ bytesOf left = front ∧
      bytesOf right = back :=
  exists_append_of_bytesOf_ascii (by decide) hbytes

/-! ## Line ends -/

/-- The last letter, if there is one, ends no line. -/
def EndsInInk (text : String) : Prop :=
  ∀ letter ∈ text.toList.getLast?, letter ≠ '\r' ∧ letter ≠ '\n'

instance (text : String) : Decidable (EndsInInk text) :=
  Option.decidableForallMem text.toList.getLast?

/-- Trimming leaves alone just those texts whose last letter ends no line. -/
theorem trimLineEnd_eq_self_iff {text : String} : trimLineEnd text = text ↔ EndsInInk text := by
  rw [← String.toList_inj, trimLineEnd, String.toList_ofList, dropEnd, EndsInInk]
  rcases List.eq_nil_or_concat' text.toList with hnil | ⟨front, last, hletters⟩
  · simp [hnil]
  · rw [hletters, List.getLast?_concat, List.reverse_concat]
    have hlength := (List.dropWhile_suffix
      (fun letter => decide (letter = '\r') || decide (letter = '\n')) (l := front.reverse)).length_le
    by_cases hend : last = '\r' ∨ last = '\n'
    · rw [List.dropWhile_cons_of_pos (by simpa using hend)]
      constructor
      · intro hsame
        have hshorter := congrArg List.length hsame
        simp only [List.length_reverse, List.length_append, List.length_singleton] at hshorter hlength
        omega
      · intro hink
        exact absurd hend (by simpa using hink)
    · rw [List.dropWhile_cons_of_neg (by simpa using hend)]
      simpa using hend

theorem EndsInInk.append {left right : String} (hright : EndsInInk right)
    (hleft : right = "" → EndsInInk left) : EndsInInk (left ++ right) := by
  by_cases hempty : right = ""
  · rw [hempty, String.append_empty]
    exact hleft hempty
  · have hsome : right.toList ≠ [] := by simpa using hempty
    rwa [EndsInInk, String.toList_append, List.getLast?_append_of_ne_nil _ hsome]

/-- A byte that ends no line. -/
def IsInk (byte : UInt8) : Prop := Char.ofUInt8 byte ≠ '\n' ∧ Char.ofUInt8 byte ≠ '\r'

theorem endsInInk_of_isInk {text : String} (hink : ∀ byte ∈ bytesOf text, IsInk byte) :
    EndsInInk text := by
  intro letter hlast
  have hmem : letter ∈ text.toList := List.mem_of_getLast? hlast
  constructor
  · rintro rfl
    exact (hink _ (mem_bytesOf_of_mem_toList hmem (by decide))).2 rfl
  · rintro rfl
    exact (hink _ (mem_bytesOf_of_mem_toList hmem (by decide))).1 rfl

/-- Trimming stops at the latest where a part of the text ends in ink. -/
theorem trimLineEnd_append {left : String} (hleft : EndsInInk left) (right : String) :
    trimLineEnd (left ++ right) = left ++ trimLineEnd right := by
  have hkept := trimLineEnd_eq_self_iff.mpr hleft
  rw [← String.toList_inj, trimLineEnd, String.toList_ofList] at hkept
  rw [← String.toList_inj, trimLineEnd, trimLineEnd, String.toList_append, String.toList_ofList,
    String.toList_append, String.toList_ofList]
  simp only [dropEnd, List.reverse_append, List.dropWhile_append] at hkept ⊢
  split
  · rename_i hnone
    rw [List.isEmpty_iff] at hnone
    simp [hnone, hkept]
  · simp

theorem endsInInk_trimLineEnd (text : String) : EndsInInk (trimLineEnd text) := by
  rw [EndsInInk, trimLineEnd, String.toList_ofList, dropEnd, List.getLast?_reverse]
  intro letter hlast
  have hkept := List.head?_dropWhile_not
    (fun letter => decide (letter = '\r') || decide (letter = '\n')) text.toList.reverse
  rw [hlast] at hkept
  simpa using hkept

/-- What is trimmed is a beginning of what it was. -/
theorem trimLineEnd_prefix_self (text : String) : (trimLineEnd text).toList <+: text.toList := by
  rw [trimLineEnd, String.toList_ofList, dropEnd, ← List.reverse_suffix, List.reverse_reverse]
  exact List.dropWhile_suffix _

end AchievementLogic.Text
