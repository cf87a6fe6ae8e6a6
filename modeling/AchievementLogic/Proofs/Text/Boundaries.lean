import AchievementLogic.Proofs.Text.Treading

/-!
# Boundaries between characters

A scan counts bytes, while a text is made of characters of one to four bytes: a place can be inside
a character, where the text cannot be cut and nothing of it is left to show.  The places between two
characters are the boundaries.  A reader that starts on a boundary and treads on ASCII letters only
stops on a boundary, and names one in its errors.
-/

namespace AchievementLogic

open Text

variable {Value : Type} {text : String}

namespace Text

/-! ## Places on a boundary -/

/-- The place at a boundary of a text. -/
def Scan.ofPos (place : text.Pos) : Scan :=
  ⟨(bytesOf text).drop place.offset.byteIdx, place.offset.byteIdx⟩

/-- Between two boundaries of a text there are only ASCII letters. -/
def OnlyAscii (start stop : text.Pos) : Prop :=
  ∀ byte ∈ bytesOf (text.extract start stop), byte.toNat < 128

theorem exists_splits_of_eq_append {left right : String} (htext : text = left ++ right) :
    ∃ place : text.Pos, place.Splits left right := by
  have hvalid : left.rawEndPos.IsValid text :=
    String.Pos.Raw.isValid_iff_exists_append.mpr ⟨left, right, htext, rfl⟩
  exact ⟨text.pos left.rawEndPos hvalid, htext, String.offset_pos⟩

section Splits

variable {place : text.Pos} {left right : String}

theorem byteIdx_of_splits (hsplits : place.Splits left right) :
    place.offset.byteIdx = (bytesOf left).length := by
  rw [hsplits.offset_eq_rawEndPos, length_bytesOf, String.byteIdx_rawEndPos]

theorem Scan.ofPos_of_splits (hsplits : place.Splits left right) :
    Scan.ofPos place = ⟨bytesOf right, (bytesOf left).length⟩ := by
  have hbytes : bytesOf text = bytesOf left ++ bytesOf right := by
    rw [← bytesOf_append, ← hsplits.eq_append]
  rw [Scan.ofPos, byteIdx_of_splits hsplits, hbytes, List.drop_left]

/-- On a boundary the text that is left is shown. -/
theorem Scan.rest_ofPos (hsplits : place.Splits left right) : (Scan.ofPos place).rest = right := by
  rw [Scan.ofPos_of_splits hsplits, Scan.rest_bytesOf]

end Splits

theorem Scan.ofPos_startPos (text : String) : Scan.ofPos text.startPos = Scan.ofString text := rfl

theorem Scan.ofPos_injective : Function.Injective (@Scan.ofPos text) := by
  intro left right hsame
  exact String.Pos.ext (String.Pos.Raw.ext (congrArg Scan.position hsame))

/-- On a boundary nothing is left to show only at the end. -/
theorem Scan.rest_ofPos_eq_empty_iff (place : text.Pos) :
    (Scan.ofPos place).rest = "" ↔ (Scan.ofPos place).atEnd = true := by
  rw [Scan.rest_ofPos place.splits, Scan.atEnd, Scan.ofPos_of_splits place.splits]
  constructor
  · intro hempty
    rw [hempty]
    rfl
  · intro hend
    exact bytesOf_injective (List.isEmpty_iff.mp hend)

theorem bytesOf_extract (start stop : text.Pos) :
    bytesOf (text.extract start stop) =
      ((bytesOf text).take stop.offset.byteIdx).drop start.offset.byteIdx := by
  simp [bytesOf, List.drop_take]

/-! ## Cutting a text -/

/-- The piece of a text from one byte up to another.  A text cannot be cut inside a character. -/
def cut? (text : String) (start stop : Nat) : Option String :=
  if hplaces : start ≤ stop ∧ String.Pos.Raw.IsValid text ⟨start⟩ ∧
      String.Pos.Raw.IsValid text ⟨stop⟩ then
    some (text.extract (text.pos ⟨start⟩ hplaces.2.1) (text.pos ⟨stop⟩ hplaces.2.2))
  else none

/-- From a boundary up to a later one a text can be cut. -/
theorem cut?_eq_some {start stop : text.Pos} (hle : start ≤ stop) :
    cut? text start.offset.byteIdx stop.offset.byteIdx = some (text.extract start stop) :=
  dif_pos ⟨hle, start.isValid, stop.isValid⟩

/-- Behind the bytes of its front a text can be cut, which leaves that front. -/
theorem cut?_append (left right : String) :
    cut? (left ++ right) 0 (bytesOf left).length = some left := by
  obtain ⟨stop, hsplits⟩ := exists_splits_of_eq_append (rfl : left ++ right = left ++ right)
  have hcut : cut? (left ++ right) 0 stop.offset.byteIdx =
      some ((left ++ right).extract (left ++ right).startPos stop) :=
    cut?_eq_some (String.Pos.startPos_le stop)
  rw [← byteIdx_of_splits hsplits, hcut]
  congr 1
  apply bytesOf_injective
  rw [bytesOf_extract, byteIdx_of_splits hsplits, bytesOf_append, List.take_left]
  rfl

/-! ## From boundary to boundary -/

/-- ASCII letters at the front of a text can be taken off it. -/
theorem exists_append_of_bytesOf_append {taken rest : List UInt8}
    (hascii : ∀ byte ∈ taken, byte.toNat < 128) (hbytes : bytesOf text = taken ++ rest) :
    ∃ left right : String, text = left ++ right ∧ bytesOf left = taken ∧ bytesOf right = rest := by
  rcases List.eq_nil_or_concat' taken with rfl | ⟨front, last, rfl⟩
  · exact ⟨"", text, by simp, rfl, hbytes⟩
  · have hlast : last.toNat < 128 := hascii last (by simp)
    rw [List.append_assoc, List.singleton_append] at hbytes
    obtain ⟨left, right, htext, -, hright⟩ := exists_append_of_bytesOf_ascii hlast hbytes
    refine ⟨_, right, htext, ?_, hright⟩
    rw [← List.append_left_inj rest, List.append_assoc front, List.singleton_append, ← hbytes,
      ← hright, ← bytesOf_append, ← htext]

namespace Scan

/-- A place between two others is reached on the way from the one to the other. -/
theorem Reaches.exists_between {scan after : Scan} (hreaches : scan.Reaches after) {position : Nat}
    (hscan : scan.position ≤ position) (hafter : position ≤ after.position) :
    ∃ between, scan.Reaches between ∧ between.Reaches after ∧ between.position = position := by
  obtain ⟨taken, htaken, hposition, hlegible⟩ := hreaches
  obtain ⟨count, rfl⟩ := Nat.exists_eq_add_of_le hscan
  have hcount : count ≤ taken.length := by omega
  refine ⟨⟨taken.drop count ++ after.remaining, scan.position + count⟩, ?_, ?_, rfl⟩
  · refine ⟨taken.take count, ?_, ?_, fun byte hmem => hlegible byte (List.mem_of_mem_take hmem)⟩
    · rw [htaken, ← List.append_assoc, List.take_append_drop]
    · rw [List.length_take_of_le hcount]
  · refine ⟨taken.drop count, rfl, ?_, fun byte hmem => hlegible byte (List.mem_of_mem_drop hmem)⟩
    simp only [hposition, List.length_drop]
    omega

/-- What is reached from a boundary is a boundary. -/
theorem Reaches.exists_pos {start : text.Pos} {after : Scan}
    (hreaches : (ofPos start).Reaches after) :
    ∃ stop : text.Pos, after = ofPos stop ∧ start ≤ stop ∧ OnlyAscii start stop := by
  obtain ⟨taken, htaken, hposition, hlegible⟩ := hreaches
  have hascii : ∀ byte ∈ taken, byte.toNat < 128 :=
    fun byte hmem => toNat_lt_of_isLegible byte (hlegible byte hmem)
  have hsplits := start.splits
  generalize (text.sliceTo start).copy = left at hsplits
  generalize (text.sliceFrom start).copy = right at hsplits
  have hstart := byteIdx_of_splits hsplits
  rw [ofPos_of_splits hsplits] at htaken hposition
  obtain ⟨middle, later, rfl, hmiddle, hlater⟩ := exists_append_of_bytesOf_append hascii htaken
  have htext : text = left ++ middle ++ later := by
    rw [hsplits.eq_append, String.append_assoc]
  obtain ⟨stop, hstop⟩ := exists_splits_of_eq_append htext
  have hlength : stop.offset.byteIdx = (bytesOf left).length + taken.length := by
    rw [byteIdx_of_splits hstop, bytesOf_append, List.length_append, hmiddle]
  have hbytes : bytesOf text = bytesOf left ++ (taken ++ after.remaining) := by
    rw [htext, bytesOf_append, bytesOf_append, hmiddle, hlater, List.append_assoc]
  refine ⟨stop, ?_, ?_, ?_⟩
  · obtain ⟨remaining, position⟩ := after
    simp only at hlater hposition
    rw [ofPos_of_splits hstop, hlater, hposition, bytesOf_append, List.length_append, hmiddle]
  · rw [String.Pos.le_iff, String.Pos.Raw.le_iff]
    omega
  · intro byte hmem
    rw [bytesOf_extract, hbytes, hlength, hstart, List.take_length_add_append, List.drop_left,
      List.take_left] at hmem
    exact hascii byte hmem

end Scan

end Text

namespace Reader

/-- Wherever the reader starts on a boundary of the text, it stops on a boundary and has taken ASCII
letters only, with a value or with an error; the error names a boundary that it came by. -/
structure StaysOnBoundaries (text : String) (reader : Reader Value) : Prop where
  ok : ∀ (start : text.Pos) value after, reader.run (.ofPos start) = .ok value after →
    ∃ stop : text.Pos, after = .ofPos stop ∧ start ≤ stop ∧ OnlyAscii start stop
  error : ∀ (start : text.Pos) error after, reader.run (.ofPos start) = .error error after →
    ∃ place stop : text.Pos, after = .ofPos stop ∧ start ≤ place ∧ place ≤ stop ∧
      OnlyAscii start stop ∧ error.position? = some place.offset.byteIdx

/-- Readers that tread on legible letters stay on boundaries. -/
theorem Treads.staysOnBoundaries {reader : Reader Value}
    (htreads : ∀ scan : Scan, Treads reader scan.position scan) :
    StaysOnBoundaries text reader where
  ok start value after hrun := ((htreads _).ok value after hrun).exists_pos
  error start error after hrun := by
    obtain ⟨hreaches, position, hposition, hlowest, hhighest⟩ := (htreads _).error error after hrun
    obtain ⟨between, hbetween, hlater, rfl⟩ := hreaches.exists_between hlowest hhighest
    obtain ⟨place, rfl, hstart, -⟩ := hbetween.exists_pos
    obtain ⟨stop, hstop, hplace, -⟩ := hlater.exists_pos
    obtain ⟨last, hlast, -, hascii⟩ := hreaches.exists_pos
    obtain rfl : last = stop := Scan.ofPos_injective (hlast.symm.trans hstop)
    exact ⟨place, last, hlast, hstart, hplace, hascii, hposition⟩

theorem staysOnBoundaries_accept {expected : Char} (hexpected : isLegible expected = true) :
    (accept expected).StaysOnBoundaries text :=
  Treads.staysOnBoundaries fun _ => Treads.accept hexpected

end Reader

end AchievementLogic
