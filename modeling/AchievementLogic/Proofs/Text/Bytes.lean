import AchievementLogic.Text.Scan
import Mathlib.Data.Fintype.Basic
import Mathlib.Data.List.Basic

/-!
# The bytes of written texts

Definitions are written as texts and read byte by byte.  This file says which bytes the operations
of the writers give, so that what is read back can be stated on lists of bytes alone: joined texts
have joined bytes, and a text of ASCII letters has one byte for each of them.
-/

namespace AchievementLogic.Text

/-- What is checked for every byte holds for every byte. -/
theorem forall_byte {holds : UInt8 → Prop} (hall : ∀ index : Fin 256, holds (.ofFin index))
    (byte : UInt8) : holds byte := by
  rw [← UInt8.ofFin_toFin byte]
  exact hall byte.toFin

theorem bytesOf_append (left right : String) :
    bytesOf (left ++ right) = bytesOf left ++ bytesOf right := by
  simp [bytesOf]

theorem length_bytesOf (text : String) : (bytesOf text).length = text.utf8ByteSize := by
  simp [bytesOf]

theorem bytesOf_join (texts : List String) :
    bytesOf (String.join texts) = texts.flatMap bytesOf := by
  induction texts with
  | nil => rfl
  | cons head tail ih => rw [String.join_cons, bytesOf_append, ih, List.flatMap_cons]

theorem bytesOf_intercalate (separator : String) (texts : List String) :
    bytesOf (separator.intercalate texts) =
      (bytesOf separator).intercalate (texts.map bytesOf) := by
  induction texts with
  | nil => rfl
  | cons head tail ih =>
      cases tail with
      | nil => simp
      | cons second others =>
          rw [String.intercalate_cons_cons, bytesOf_append, bytesOf_append, ih]
          simp [List.intercalate_cons_cons]

/-- A text can be recovered from its bytes. -/
theorem ofBytes?_bytesOf (text : String) : ofBytes? (bytesOf text) = some text := by
  have hvalid := text.isValidUTF8
  simp [ofBytes?, bytesOf, String.fromUTF8?, String.fromUTF8, hvalid]

/-- What is left to read of the bytes of a text is that text. -/
theorem Scan.rest_bytesOf (text : String) (position : Nat) :
    Scan.rest ⟨bytesOf text, position⟩ = text := by
  rw [Scan.rest, ofBytes?_bytesOf, Option.getD_some]

theorem bytesOf_injective : Function.Injective bytesOf := by
  intro left right hsame
  rw [← Scan.rest_bytesOf left 0, hsame, Scan.rest_bytesOf]

/-- A text that is recovered has the bytes it was recovered from. -/
theorem bytesOf_of_ofBytes? {bytes : List UInt8} {text : String}
    (htext : ofBytes? bytes = some text) : bytesOf text = bytes := by
  unfold ofBytes? String.fromUTF8? at htext
  split at htext
  · obtain rfl := Option.some.inj htext
    rfl
  · cases htext

theorem bytesOf_ofList_eq_flatMap (letters : List Char) :
    bytesOf (String.ofList letters) = letters.flatMap String.utf8EncodeChar := by
  simp [bytesOf, List.utf8Encode]

theorem bytesOf_eq_flatMap (text : String) :
    bytesOf text = text.toList.flatMap String.utf8EncodeChar := by
  rw [← bytesOf_ofList_eq_flatMap, String.ofList_toList]

/-- A byte below 128 stands for the letter of the same number, wherever it is found. -/
theorem ofUInt8_of_mem_utf8EncodeChar {byte : UInt8} {letter : Char}
    (hmem : byte ∈ String.utf8EncodeChar letter) (hascii : byte.toNat < 128) :
    Char.ofUInt8 byte = letter := by
  have hnumber : byte.toNat = letter.toNat := by
    unfold String.utf8EncodeChar at hmem
    simp only at hmem
    split at hmem
    case isTrue hsmall =>
      rw [List.mem_singleton.mp hmem, UInt8.toNat_ofNat']
      exact Nat.mod_eq_of_lt (by omega)
    case isFalse =>
      have hlarge {number : Nat} (hnumber : 128 ≤ number ∧ number < 256) :
          byte ≠ UInt8.ofNat number := by
        rintro rfl
        rw [UInt8.toNat_ofNat'] at hascii
        omega
      repeat' split at hmem
      all_goals
        simp only [List.mem_cons, List.not_mem_nil, or_false] at hmem
        exfalso
      · rcases hmem with hbyte | hbyte <;> exact hlarge (by omega) hbyte
      · rcases hmem with hbyte | hbyte | hbyte <;> exact hlarge (by omega) hbyte
      · rcases hmem with hbyte | hbyte | hbyte | hbyte <;> exact hlarge (by omega) hbyte
  have hshown : (Char.ofUInt8 byte).toNat = byte.toNat := UInt8.toNat_toUInt32 byte
  exact Char.toNat_inj.mp (hshown.trans hnumber)

theorem utf8EncodeChar_of_ascii {letter : Char} (hascii : letter.toNat < 128) :
    String.utf8EncodeChar letter = [letter.toUInt8] := by
  apply String.utf8EncodeChar_eq_singleton
  rw [Char.utf8Size_eq_one_iff, UInt32.le_iff_toNat_le]
  exact Nat.le_of_lt_succ hascii

/-- An ASCII letter is in a text exactly if its byte is among the bytes. -/
theorem mem_bytesOf_iff {letter : Char} (hascii : letter.toNat < 128) {text : String} :
    letter.toUInt8 ∈ bytesOf text ↔ letter ∈ text.toList := by
  have hself := utf8EncodeChar_of_ascii hascii
  have hnumber : letter.toUInt8.toNat = letter.toNat := by
    have hlt : letter.val.toNat < 128 := hascii
    rw [Char.toUInt8, UInt32.toNat_toUInt8]
    exact Nat.mod_eq_of_lt (by omega)
  have hshown : Char.ofUInt8 letter.toUInt8 = letter :=
    ofUInt8_of_mem_utf8EncodeChar (by simp [hself]) (by omega)
  rw [bytesOf_eq_flatMap, List.mem_flatMap]
  constructor
  · rintro ⟨other, hother, hmem⟩
    rwa [← hshown, ofUInt8_of_mem_utf8EncodeChar hmem (by omega)]
  · intro hmem
    exact ⟨letter, hmem, by simp [hself]⟩

/-- A text of ASCII letters has one byte for each of them. -/
theorem bytesOf_ofList {letters : List Char} (hascii : ∀ letter ∈ letters, letter.toNat < 128) :
    bytesOf (String.ofList letters) = letters.map Char.toUInt8 := by
  rw [bytesOf_ofList_eq_flatMap]
  induction letters with
  | nil => rfl
  | cons head tail ih =>
      rw [List.flatMap_cons, utf8EncodeChar_of_ascii (hascii head (by simp)),
        ih (fun letter hmem => hascii letter (by simp [hmem]))]
      rfl

theorem toUInt8_ofUInt8 (byte : UInt8) : (Char.ofUInt8 byte).toUInt8 = byte :=
  UInt8.toUInt8_toUInt32 byte

/-- A byte below 128 among the bytes is a letter, and what stands before and after it are texts. -/
theorem exists_append_of_bytesOf_ascii {text : String} {front back : List UInt8} {byte : UInt8}
    (hascii : byte.toNat < 128) (hbytes : bytesOf text = front ++ byte :: back) :
    ∃ left right : String, text = left ++ String.singleton (Char.ofUInt8 byte) ++ right ∧
      bytesOf left = front ∧ bytesOf right = back := by
  suffices hletters : ∃ before after : List Char,
      text.toList = before ++ Char.ofUInt8 byte :: after ∧
      before.flatMap String.utf8EncodeChar = front ∧
      after.flatMap String.utf8EncodeChar = back by
    obtain ⟨before, after, htext, rfl, rfl⟩ := hletters
    refine ⟨String.ofList before, String.ofList after, ?_, bytesOf_ofList_eq_flatMap _,
      bytesOf_ofList_eq_flatMap _⟩
    rw [← String.toList_inj, htext]
    simp
  rw [bytesOf_eq_flatMap] at hbytes
  generalize text.toList = letters at hbytes ⊢
  induction letters generalizing front with
  | nil => simp at hbytes
  | cons letter others ih =>
      rw [List.flatMap_cons] at hbytes
      rcases List.append_eq_append_iff.mp hbytes with
        ⟨more, rfl, hothers⟩ | ⟨more, hletter, hothers⟩
      · obtain ⟨before, after, rfl, rfl, hafter⟩ := ih hothers
        exact ⟨letter :: before, after, rfl, List.flatMap_cons, hafter⟩
      · cases more with
        | nil =>
            rw [List.append_nil] at hletter
            obtain ⟨before, after, rfl, hbefore, hafter⟩ := @ih [] hothers.symm
            refine ⟨letter :: before, after, rfl, ?_, hafter⟩
            rw [List.flatMap_cons, hbefore, hletter, List.append_nil]
        | cons first later =>
            obtain ⟨rfl, hrest⟩ := List.cons.inj hothers
            have hmem : byte ∈ String.utf8EncodeChar letter := by
              rw [hletter]
              exact List.mem_append_right _ List.mem_cons_self
            have hsame := ofUInt8_of_mem_utf8EncodeChar hmem hascii
            have hnumber : letter.toNat < 128 := by
              rw [← hsame]
              exact hascii
            rw [utf8EncodeChar_of_ascii hnumber, ← hsame, toUInt8_ofUInt8] at hletter
            obtain ⟨rfl, rfl⟩ : front = [] ∧ later = [] := by
              have hlength := congrArg List.length hletter
              simp only [List.length_append, List.length_cons, List.length_nil] at hlength
              exact ⟨List.eq_nil_of_length_eq_zero (by omega),
                List.eq_nil_of_length_eq_zero (by omega)⟩
            exact ⟨[], others, by rw [hsame, List.nil_append], rfl, hrest.symm⟩

end AchievementLogic.Text
