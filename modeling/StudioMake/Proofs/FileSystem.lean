import StudioMake.FileSystem
import StudioMake.Proofs.Sequences

/-!
# Writing a file

Where a path leads depends on the directories that it passes through and on nothing else. So a file
that is written is read back under its path, and every other place holds what it held before.
-/

set_option autoImplicit false

namespace StudioMake.FileSystem

variable {fs fs' : FileSystem} {path : String} {content : Bytes}
  {place start : List String} {names : List String}

theorem lookup_filter (p : List String → Bool) (l : List (List String × Entry)) :
    (l.filter fun item => p item.1).lookup place = if p place then l.lookup place else none := by
  induction l with
  | nil => simp
  | cons item rest ih =>
    obtain ⟨key, entry⟩ := item
    by_cases hk : place = key
    · subst hk
      cases hp : p place <;> simp [hp, ih]
    · have hne : (place == key) = false := beq_false_of_ne hk
      cases hp : p key <;> simp [List.lookup_cons, hp, hne, ih]

theorem entry?_put (hp : place ≠ []) (entry : Entry) (other : List String) :
    entry? (fs.put place entry) other = if other = place then some entry else fs.entry? other := by
  unfold put entry?
  rw [List.lookup_append, lookup_filter (fun q => decide (q ≠ place))]
  by_cases ho : other = place
  · subst ho
    simp [hp]
  · have hne : (other == place) = false := beq_false_of_ne ho
    simp [ho, hne, List.lookup_cons]

theorem walk_eq_ok (hd : ∀ q, fs.entry? q = some .directory → fs'.entry? q = some .directory)
    (h : fs.walk start names = .ok place) : fs'.walk start names = .ok place := by
  induction names generalizing start with
  | nil => exact h
  | cons name rest ih =>
    rw [walk] at h ⊢
    split at h
    · cases h
    · cases h
    · next he =>
      rw [hd start he]
      split at h
      · next hn => simpa [hn] using ih h
      · next hn =>
        split at h
        · next hn' => simpa [hn, hn'] using ih h
        · next hn' => simpa [hn, hn'] using ih h

theorem place_eq_ok (hw : fs'.workingDirectory = fs.workingDirectory)
    (hd : ∀ q, fs.entry? q = some .directory → fs'.entry? q = some .directory)
    (h : fs.place path = .ok place) : fs'.place path = .ok place := by
  unfold FileSystem.place at h ⊢
  split at h
  · cases h
  · next hp =>
    rw [if_neg hp, hw]
    exact walk_eq_ok hd h

theorem write_eq_ok_iff : fs.write path content = .ok fs' ↔
    ∃ place, fs.place path = .ok place ∧ fs.entry? place ≠ some .directory ∧
      fs' = fs.put place (.file content) := by
  unfold write
  rw [bind_eq_ok_iff]
  refine exists_congr fun place => and_congr_right fun _ => ?_
  split
  · next h => simp [h]
  · next h =>
    constructor
    · intro he
      cases he
      exact ⟨h, rfl⟩
    · rintro ⟨-, rfl⟩
      rfl

/-- A path leads to a file with a content now, and nothing else is different. -/
structure Rewritten (before after : FileSystem) (path : String) (content : Bytes) : Prop where
  workingDirectory : after.workingDirectory = before.workingDirectory
  read_eq : after.read path = .ok content
  elsewhere : ∃ place, before.place path = .ok place ∧
    ∀ other, other ≠ place → after.entry? other = before.entry? other

theorem rewritten_of_write (h : fs.write path content = .ok fs') :
    Rewritten fs fs' path content := by
  obtain ⟨place, hplace, hdir, rfl⟩ := write_eq_ok_iff.1 h
  have hne : place ≠ [] := by
    rintro rfl
    exact hdir rfl
  have hdirs : ∀ q, fs.entry? q = some .directory →
      entry? (fs.put place (.file content)) q = some .directory := by
    intro q hq
    rw [entry?_put hne, if_neg, hq]
    rintro rfl
    exact hdir hq
  refine ⟨rfl, ?_, place, hplace, fun other ho => ?_⟩
  · have hdirectory : (fs.put place (.file content)).workingDirectory = fs.workingDirectory := rfl
    have hafter : (fs.put place (.file content)).place path = .ok place :=
      place_eq_ok hdirectory hdirs hplace
    have hentry : entry? (fs.put place (.file content)) place = some (.file content) := by
      rw [entry?_put hne, if_pos rfl]
    simp only [read, stat, hafter, bind, Except.bind, hentry]
  · rw [entry?_put hne, if_neg ho]

theorem pathExists_of_isDirectory (h : fs.isDirectory path = true) :
    fs.pathExists path = true := by
  unfold isDirectory at h
  unfold pathExists
  split at h
  · next hs => rw [hs, Except.toBool]
  · cases h

end StudioMake.FileSystem
