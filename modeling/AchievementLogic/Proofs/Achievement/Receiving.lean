import AchievementLogic.Proofs.Achievement.Restoring

/-!
# Progress for several achievements

The progress of several achievements stands in one text, and an achievement reads what is at the
front of it.  What was saved under another number is not read at all, so that each achievement takes
the progress that was saved under its own number and no other.
-/

namespace AchievementLogic.Achievement

open Text

/-! ## Progress under another number -/

theorem readHeader_fieldText_of_ne {other id : UInt32} (hid : other ≠ id) (rest : List UInt8)
    (position : Nat) :
    readHeader id ⟨bytesOf (fieldText other.toNat) ++ rest, position⟩ = none := by
  rw [readHeader, readField_fieldText]
  simp [hid, guard]

theorem read?_eq_none_of_readHeader {id : UInt32} {text : String}
    (hheader : readHeader id (.ofString text) = none) : SavedProgress.read? id text = none := by
  have hgroups (rounds : Nat) :
      readGroups id rounds (.ofString text) = some ([], .ofString text) := by
    cases rounds with
    | zero => rfl
    | succ rounds => rw [readGroups, hheader]
  rw [SavedProgress.read?, hgroups]
  rfl

/-- Saved progress begins with the number of its achievement. -/
theorem ofString_saveProgress (saved : Achievement) (user suffix : String) :
    ∃ rest, Scan.ofString (saved.saveProgress user ++ suffix) =
      ⟨bytesOf (fieldText saved.id.toNat) ++ rest, 0⟩ := by
  obtain ⟨first, others, hgroups⟩ := List.exists_cons_of_ne_nil saved.savedGroups_ne_nil
  rw [Scan.ofString, bytesOf_saveProgress_append, groupsText, hgroups, List.map_cons,
    String.join_cons, groupText]
  simp only [bytesOf_append, List.append_assoc]
  exact ⟨_, rfl⟩

theorem read?_saveProgress_of_ne {saved : Achievement} {id : UInt32} (hid : saved.id ≠ id)
    (user suffix : String) :
    SavedProgress.read? id (saved.saveProgress user ++ suffix) = none := by
  obtain ⟨rest, hscan⟩ := saved.ofString_saveProgress user suffix
  apply read?_eq_none_of_readHeader
  rw [hscan, readHeader_fieldText_of_ne hid]

theorem read?_empty (id : UInt32) : SavedProgress.read? id "" = none := rfl

theorem restoreProgress_of_read?_eq_none {achievement : Achievement} {text : String}
    (hread : SavedProgress.read? achievement.id text = none) (user : String) :
    achievement.restoreProgress text user = (text, achievement) := by
  rw [restoreProgress, hread]

theorem saveProgress_pos (achievement : Achievement) (user : String) :
    0 < (achievement.saveProgress user).utf8ByteSize := by
  rw [saveProgress_eq, String.utf8ByteSize_append]
  exact Nat.lt_add_left _ (by decide)

/-- What the text of saved progress has to be for it to be read as far as it goes and no further. -/
structure IsReadable (saved : Achievement) (user : String) : Prop where
  count : ∀ group ∈ saved.trigger.groups, group.size < 2 ^ 32
  letter : (userDigest user saved.groupsText saved.id).toList.all Char.isDigit = false

instance (saved : Achievement) (user : String) : Decidable (saved.IsReadable user) :=
  decidable_of_iff
    ((∀ group ∈ saved.trigger.groups, group.size < 2 ^ 32) ∧
      (userDigest user saved.groupsText saved.id).toList.all Char.isDigit = false)
    ⟨fun ⟨count, letter⟩ => ⟨count, letter⟩, fun readable => ⟨readable.count, readable.letter⟩⟩

/-! ## Progress for several achievements -/

/-- The achievement with the progress that was saved under its number, if there is any. -/
def receive (sources : List Achievement) (achievement : Achievement) : Achievement :=
  match sources.find? (·.id == achievement.id) with
  | some saved =>
    { achievement with trigger := restoreTrigger saved.savedGroups achievement.trigger }
  | none => achievement

/-- Whatever was saved under the number of the achievement was saved for its conditions. -/
def Agrees (sources : List Achievement) (achievement : Achievement) : Prop :=
  ∀ saved ∈ sources, saved.id = achievement.id →
    achievement.trigger.fresh = saved.trigger.fresh

section Receiving

variable {sources : List Achievement} {achievement saved : Achievement}

theorem id_receive (sources : List Achievement) (achievement : Achievement) :
    (achievement.receive sources).id = achievement.id := by
  rw [receive]
  split <;> rfl

theorem receive_of_find?_eq_some
    (hfind : sources.find? (·.id == achievement.id) = some saved) :
    achievement.receive sources =
      { achievement with trigger := restoreTrigger saved.savedGroups achievement.trigger } := by
  rw [receive, hfind]

theorem receive_of_find?_eq_none (hfind : sources.find? (·.id == achievement.id) = none) :
    achievement.receive sources = achievement := by
  rw [receive, hfind]

theorem find?_eq_none_of_ne (hne : ∀ saved ∈ sources, saved.id ≠ achievement.id) :
    sources.find? (·.id == achievement.id) = none := by
  apply List.find?_eq_none.mpr
  intro saved hmem
  simpa using hne saved hmem

theorem receive_cons_of_ne (hid : saved.id ≠ achievement.id) :
    achievement.receive (saved :: sources) = achievement.receive sources := by
  rw [receive, List.find?_cons_of_neg (by simpa using hid), receive]

/-- The first progress under the number of the achievement is the one that counts. -/
theorem receive_cons_of_eq (hid : saved.id = achievement.id) (sources : List Achievement) :
    achievement.receive (saved :: sources) =
      { achievement with trigger := restoreTrigger saved.savedGroups achievement.trigger } :=
  receive_of_find?_eq_some (List.find?_cons_of_pos (by simpa using hid))

theorem restoreProgress_of_isReadable {user : String} (hid : saved.id = achievement.id)
    (hagrees : achievement.Agrees [saved]) (hreadable : saved.IsReadable user)
    (suffix : String) :
    achievement.restoreProgress (saved.saveProgress user ++ suffix) user =
      (suffix, achievement.receive [saved]) := by
  have hsame := hagrees saved List.mem_cons_self hid
  rw [restoreProgress_saved hid.symm hsame hreadable.count hreadable.letter,
    receive_cons_of_eq hid]

theorem Agrees.of_subset {part whole : List Achievement} (hagrees : achievement.Agrees whole)
    (hsubset : part ⊆ whole) : achievement.Agrees part :=
  fun saved hmem => hagrees saved (hsubset hmem)

theorem Agrees.fresh_receive (hagrees : achievement.Agrees sources) :
    (achievement.receive sources).trigger.fresh = achievement.trigger.fresh := by
  cases hfind : sources.find? (·.id == achievement.id) with
  | none => rw [receive_of_find?_eq_none hfind]
  | some saved =>
      have hid : saved.id = achievement.id := by simpa using List.find?_some hfind
      have hsame := hagrees saved (List.mem_of_find?_eq_some hfind) hid
      rw [receive_of_find?_eq_some hfind, fresh_restoreTrigger hsame, hsame]

theorem Agrees.receive {other : List Achievement} (hagrees : achievement.Agrees sources)
    (hother : achievement.Agrees other) : (achievement.receive sources).Agrees other := by
  intro saved hmem hid
  rw [id_receive] at hid
  rw [hagrees.fresh_receive]
  exact hother saved hmem hid

theorem map_id_receive (sources achievements : List Achievement) :
    (achievements.map (Achievement.receive sources)).map (·.id) = achievements.map (·.id) := by
  rw [List.map_map]
  exact List.map_congr_left fun achievement _ => achievement.id_receive sources

/-- Where the numbers are different, progress may be received in parts. -/
theorem receive_receive {first second : List Achievement}
    (hids : ((first ++ second).map (·.id)).Nodup) (achievement : Achievement) :
    (achievement.receive first).receive second = achievement.receive (first ++ second) := by
  have happend : (first ++ second).find? (·.id == achievement.id) =
      (first.find? (·.id == achievement.id)).or (second.find? (·.id == achievement.id)) :=
    List.find?_append
  cases hfind : first.find? (·.id == achievement.id) with
  | none =>
      rw [hfind, Option.none_or] at happend
      rw [receive_of_find?_eq_none hfind, receive, receive, happend]
  | some saved =>
      rw [hfind, Option.some_or] at happend
      have hid : saved.id = achievement.id := by simpa using List.find?_some hfind
      have hother : ∀ other ∈ second, other.id ≠ (achievement.receive first).id := by
        intro other hother hsame
        rw [id_receive, ← hid] at hsame
        rw [List.map_append, List.nodup_append] at hids
        exact hids.2.2 saved.id (List.mem_map_of_mem (List.mem_of_find?_eq_some hfind)) other.id
          (List.mem_map_of_mem hother) hsame.symm
      rw [receive_of_find?_eq_none (find?_eq_none_of_ne hother),
        receive_of_find?_eq_some hfind, receive_of_find?_eq_some happend]

end Receiving

end AchievementLogic.Achievement
