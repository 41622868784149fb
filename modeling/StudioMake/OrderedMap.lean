import StudioMake.Text.Case

/-!
# Maps in order of first insertion

A map from texts is the list of its entries, each key once. Inserting under a key that is present
replaces the value and keeps the place of the entry; a new key goes to the end. `find?` and `keys`
are the views: every operation has one lemma for each.
-/

set_option autoImplicit false

namespace StudioMake

/-- A finite map from texts to `α` that remembers the order of first insertion. -/
structure OrderedMap (α : Type) where
  toList : List (String × α)
  nodup : (toList.map Prod.fst).Nodup
deriving DecidableEq

namespace OrderedMap

variable {α : Type}

def upsertEntry (key : String) (f : Option α → α) : List (String × α) → List (String × α)
  | [] => [(key, f none)]
  | (k, a) :: rest =>
    if k = key then (key, f (some a)) :: rest else (k, a) :: upsertEntry key f rest

theorem map_fst_upsertEntry (key : String) (f : Option α → α) (l : List (String × α)) :
    (upsertEntry key f l).map Prod.fst =
      if key ∈ l.map Prod.fst then l.map Prod.fst else l.map Prod.fst ++ [key] := by
  induction l with
  | nil => simp [upsertEntry]
  | cons entry rest ih =>
    obtain ⟨k, a⟩ := entry
    by_cases h : k = key
    · simp [upsertEntry, h]
    · by_cases hm : key ∈ rest.map Prod.fst
      · simp_all [upsertEntry]
      · rw [if_neg hm] at ih
        rw [if_neg (by simpa [Ne.symm h] using hm)]
        simp [upsertEntry, h, ih]

theorem nodup_upsertEntry {key : String} {f : Option α → α} {l : List (String × α)}
    (h : (l.map Prod.fst).Nodup) : ((upsertEntry key f l).map Prod.fst).Nodup := by
  rw [map_fst_upsertEntry]
  split
  · exact h
  · next hm =>
    rw [List.nodup_append]
    refine ⟨h, by simp, ?_⟩
    intro a ha b hb he
    rw [List.mem_singleton.1 hb] at he
    exact hm (he ▸ ha)

def empty : OrderedMap α := ⟨[], by simp⟩

instance : EmptyCollection (OrderedMap α) := ⟨empty⟩

instance : Inhabited (OrderedMap α) := ⟨empty⟩

def keys (m : OrderedMap α) : List String := m.toList.map Prod.fst

def size (m : OrderedMap α) : Nat := m.toList.length

def find? (m : OrderedMap α) (key : String) : Option α := m.toList.lookup key

def contains (m : OrderedMap α) (key : String) : Bool := (m.find? key).isSome

/-- Replaces the value under `key` by `f` of it; `f none` is the value of a new entry. -/
def upsert (m : OrderedMap α) (key : String) (f : Option α → α) : OrderedMap α :=
  ⟨upsertEntry key f m.toList, nodup_upsertEntry m.nodup⟩

def insert (m : OrderedMap α) (key : String) (value : α) : OrderedMap α :=
  m.upsert key fun _ => value

def insertAll (m : OrderedMap α) (l : List (String × α)) : OrderedMap α :=
  l.foldl (fun m entry => m.insert entry.1 entry.2) m

def ofList (l : List (String × α)) : OrderedMap α := empty.insertAll l

def findIgnoringCase? (m : OrderedMap α) (name : String) : Option (String × α) :=
  m.toList.find? fun entry => Text.sameIgnoringCase entry.1 name

@[ext] theorem ext {m n : OrderedMap α} (h : m.toList = n.toList) : m = n := by
  cases m; cases n; cases h; rfl

theorem lookup_upsertEntry (key : String) (f : Option α → α) (l : List (String × α))
    (other : String) :
    (upsertEntry key f l).lookup other =
      if other = key then some (f (l.lookup key)) else l.lookup other := by
  induction l with
  | nil =>
    by_cases h : other = key
    · simp [upsertEntry, h]
    · simp [upsertEntry, List.lookup_cons, h, beq_false_of_ne h]
  | cons entry rest ih =>
    obtain ⟨k, a⟩ := entry
    by_cases h : k = key
    · subst h
      by_cases ho : other = k
      · simp [upsertEntry, ho]
      · simp [upsertEntry, List.lookup_cons, ho, beq_false_of_ne ho]
    · by_cases ho : other = k
      · subst ho
        simp [upsertEntry, h]
      · simp [upsertEntry, List.lookup_cons, h, beq_false_of_ne ho, beq_false_of_ne (Ne.symm h), ih]

@[simp] theorem find?_empty (key : String) : (∅ : OrderedMap α).find? key = none := rfl

@[simp] theorem keys_empty : (∅ : OrderedMap α).keys = [] := rfl

theorem find?_upsert (m : OrderedMap α) (key : String) (f : Option α → α) (other : String) :
    (m.upsert key f).find? other = if other = key then some (f (m.find? key)) else m.find? other :=
  lookup_upsertEntry key f m.toList other

theorem keys_upsert (m : OrderedMap α) (key : String) (f : Option α → α) :
    (m.upsert key f).keys = if key ∈ m.keys then m.keys else m.keys ++ [key] :=
  map_fst_upsertEntry key f m.toList

theorem find?_insert (m : OrderedMap α) (key : String) (value : α) (other : String) :
    (m.insert key value).find? other = if other = key then some value else m.find? other :=
  find?_upsert m key _ other

theorem keys_insert (m : OrderedMap α) (key : String) (value : α) :
    (m.insert key value).keys = if key ∈ m.keys then m.keys else m.keys ++ [key] :=
  keys_upsert m key _

theorem nodup_keys (m : OrderedMap α) : m.keys.Nodup := m.nodup

theorem insertAll_append (m : OrderedMap α) (l₁ l₂ : List (String × α)) :
    m.insertAll (l₁ ++ l₂) = (m.insertAll l₁).insertAll l₂ := by
  simp [insertAll, List.foldl_append]

theorem find?_eq_none_iff (m : OrderedMap α) (key : String) :
    m.find? key = none ↔ key ∉ m.keys := by
  obtain ⟨l, hl⟩ := m
  simp only [find?, keys]
  clear hl
  induction l with
  | nil => simp
  | cons entry rest ih =>
    obtain ⟨k, a⟩ := entry
    by_cases h : key = k
    · simp [h]
    · have hk : (key == k) = false := by simp [h]
      simp [List.lookup_cons, hk, h, ih]

theorem mem_iff_lookup {l : List (String × α)} {key : String} {value : α}
    (h : (l.map Prod.fst).Nodup) : (key, value) ∈ l ↔ l.lookup key = some value := by
  induction l with
  | nil => simp
  | cons entry rest ih =>
    obtain ⟨k, a⟩ := entry
    rw [List.map_cons, List.nodup_cons] at h
    rw [List.mem_cons, ih h.2, List.lookup_cons]
    by_cases hk : key = k
    · subst hk
      have hn : rest.lookup key ≠ some value := by
        intro hs
        exact h.1 (List.mem_map.2 ⟨_, (ih h.2).2 hs, rfl⟩)
      simp [hn, eq_comm]
    · simp [hk, beq_false_of_ne hk]

theorem mem_toList_iff (m : OrderedMap α) {key : String} {value : α} :
    (key, value) ∈ m.toList ↔ m.find? key = some value :=
  mem_iff_lookup m.nodup

theorem upsertEntry_of_notMem {key : String} {f : Option α → α} {l : List (String × α)}
    (h : key ∉ l.map Prod.fst) : upsertEntry key f l = l ++ [(key, f none)] := by
  induction l with
  | nil => rfl
  | cons entry rest ih =>
    obtain ⟨k, a⟩ := entry
    rw [List.map_cons, List.mem_cons, not_or] at h
    rw [upsertEntry, if_neg (Ne.symm h.1), ih h.2, List.cons_append]

theorem toList_insertAll (m : OrderedMap α) {l : List (String × α)}
    (h : (m.keys ++ l.map Prod.fst).Nodup) : (m.insertAll l).toList = m.toList ++ l := by
  induction l generalizing m with
  | nil => simp [insertAll]
  | cons entry rest ih =>
    have hk : entry.1 ∉ m.keys := by
      rw [List.nodup_append] at h
      intro hm
      exact h.2.2 _ hm _ List.mem_cons_self rfl
    have hl : (m.insert entry.1 entry.2).toList = m.toList ++ [entry] := upsertEntry_of_notMem hk
    have hkeys : (m.insert entry.1 entry.2).keys = m.keys ++ [entry.1] := by
      rw [keys_insert, if_neg hk]
    have ih := ih (m.insert entry.1 entry.2) (by simpa [hkeys] using h)
    rw [hl, List.append_assoc] at ih
    exact ih

theorem toList_ofList {l : List (String × α)} (h : (l.map Prod.fst).Nodup) :
    (ofList l).toList = l :=
  toList_insertAll empty h

end OrderedMap

end StudioMake
