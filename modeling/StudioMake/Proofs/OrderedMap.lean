import Mathlib.Data.List.Induction
import StudioMake.OrderedMap
import StudioMake.Proofs.Sequences

/-!
# What a map in order of first insertion holds

A map is known by the order of its keys and by what it holds under each. After a list of entries is
inserted, the keys stand in the order in which they came up, each with the value of its last entry.
-/

set_option autoImplicit false

namespace StudioMake.OrderedMap

variable {α : Type} {m n : OrderedMap α} {key : String}

theorem map_some_toList (m : OrderedMap α) :
    m.toList.map (fun entry => (entry.1, some entry.2)) =
      m.keys.map fun key => (key, m.find? key) := by
  rw [keys, List.map_map]
  refine List.map_congr_left fun entry he => ?_
  rw [Function.comp_apply, m.mem_toList_iff.1 he]

theorem eq_of_find? (hk : m.keys = n.keys) (hf : ∀ key ∈ m.keys, m.find? key = n.find? key) :
    m = n := by
  have hinj : ∀ a b : String × α, (a.1, some a.2) = (b.1, some b.2) → a = b := by
    rintro ⟨k, v⟩ ⟨k', v'⟩ h
    cases h
    rfl
  refine OrderedMap.ext ((List.map_inj_right hinj).1 ?_)
  rw [map_some_toList, map_some_toList, ← hk]
  exact List.map_congr_left fun key hm => by rw [hf key hm]

section Order

/-- Some keys, and behind them the names that are not among them, each where it first comes up. -/
def addNew (keys names : List String) : List String :=
  keys ++ (names.filter fun name => name ∉ keys).eraseDups

theorem addNew_nil (keys : List String) : addNew keys [] = keys := by
  simp [addNew]

theorem nil_addNew (names : List String) : addNew [] names = names.eraseDups := by
  simp [addNew]

theorem addNew_singleton (keys : List String) (name : String) :
    addNew keys [name] = if name ∈ keys then keys else keys ++ [name] := by
  by_cases h : name ∈ keys <;> simp [addNew, h, List.eraseDups_cons]

theorem addNew_append (keys names more : List String) :
    addNew keys (names ++ more) = addNew (addNew keys names) more := by
  have hmore : (more.filter fun name => name ∉ keys).removeAll
      (names.filter fun name => name ∉ keys) =
        more.filter fun name => name ∉ addNew keys names := by
    rw [List.removeAll, List.filter_filter]
    refine List.filter_congr fun name _ => ?_
    by_cases hk : name ∈ keys <;> simp [addNew, hk]
  unfold addNew at hmore ⊢
  rw [List.filter_append, List.eraseDups_append, hmore, List.append_assoc]

theorem get_foldl_eq_addNew {σ β : Type} (get : σ → List String) {new : β → List String}
    {step : σ → β → σ} (h : ∀ s b, get (step s b) = addNew (get s) (new b)) (l : List β) (s : σ) :
    get (l.foldl step s) = addNew (get s) (l.flatMap new) := by
  induction l generalizing s with
  | nil => rw [List.foldl_nil, List.flatMap_nil, addNew_nil]
  | cons b l ih => rw [List.foldl_cons, ih, h, List.flatMap_cons, addNew_append]

theorem keys_upsert_eq_addNew (m : OrderedMap α) (key : String) (f : Option α → α) :
    (m.upsert key f).keys = addNew m.keys [key] := by
  rw [keys_upsert, addNew_singleton]

theorem keys_insertAll (m : OrderedMap α) (l : List (String × α)) :
    (m.insertAll l).keys = addNew m.keys (l.map Prod.fst) := by
  rw [List.map_eq_flatMap]
  exact get_foldl_eq_addNew keys (fun m entry => keys_upsert_eq_addNew m entry.1 _) l m

end Order

section Inserting

/-- The value of the last entry under a key. -/
def lastUnder? (key : String) (l : List (String × α)) : Option α :=
  lastSome? (fun entry => if entry.1 = key then some entry.2 else none) l

theorem find?_insertAll (m : OrderedMap α) (l : List (String × α)) :
    (m.insertAll l).find? key = (lastUnder? key l).or (m.find? key) := by
  refine get_foldl_eq_lastSome? (fun m : OrderedMap α => m.find? key) (fun m entry => ?_) l m
  rw [find?_insert]
  by_cases h : key = entry.1
  · simp [h]
  · simp [h, Ne.symm h]

theorem ofList_concat (l : List (String × α)) (entry : String × α) :
    ofList (l ++ [entry]) = (ofList l).insert entry.1 entry.2 :=
  insertAll_append _ _ _

theorem keys_ofList (l : List (String × α)) : (ofList l).keys = (l.map Prod.fst).eraseDups :=
  (keys_insertAll empty l).trans (nil_addNew _)

theorem getLast?_ofList (l : List (String × α)) :
    (ofList l).toList.getLast?.map Prod.snd =
      (l.map Prod.fst).eraseDups.getLast?.bind fun key => lastUnder? key l := by
  rw [← keys_ofList, keys, List.getLast?_map]
  cases h : (ofList l).toList.getLast? with
  | none => rfl
  | some entry =>
    have hf := (mem_toList_iff _).1 (List.mem_of_getLast? h)
    have hv : (ofList l).find? entry.1 = (lastUnder? entry.1 l).or none := find?_insertAll empty l
    rw [Option.or_none, hf] at hv
    exact hv

theorem filter_upsertEntry (p : String → Bool) (f : Option α → α) (l : List (String × α)) :
    (upsertEntry key f l).filter (fun entry => p entry.1) =
      if p key then upsertEntry key f (l.filter fun entry => p entry.1)
      else l.filter fun entry => p entry.1 := by
  induction l with
  | nil => cases h : p key <;> simp [upsertEntry, h]
  | cons entry l ih =>
    obtain ⟨k, a⟩ := entry
    by_cases hk : k = key
    · subst hk
      cases h : p k <;> simp [upsertEntry, h]
    · cases h : p k <;> cases hp : p key <;> simp [upsertEntry, h, hp, hk, ih]

theorem filter_ofList (p : String → Bool) (l : List (String × α)) :
    (ofList l).toList.filter (fun entry => p entry.1) =
      (ofList (l.filter fun entry => p entry.1)).toList := by
  induction l using List.reverseRecOn with
  | nil => rfl
  | append_singleton l entry ih =>
    rw [ofList_concat, List.filter_append]
    refine (filter_upsertEntry p _ _).trans ?_
    rw [ih]
    cases h : p entry.1 with
    | true =>
      rw [if_pos rfl, List.filter_singleton, h, cond_true, ofList_concat]
      rfl
    | false => simp [h]

theorem find?_upsertEntry_of_not {p : String → Bool} (hp : p key = false) (f : Option α → α)
    (l : List (String × α)) :
    (upsertEntry key f l).find? (fun entry => p entry.1) = l.find? fun entry => p entry.1 := by
  induction l with
  | nil => simp [upsertEntry, hp]
  | cons entry l ih =>
    obtain ⟨k, a⟩ := entry
    by_cases hk : k = key
    · simp [upsertEntry, hk, hp]
    · cases h : p k <;> simp [upsertEntry, hk, h, ih]

theorem find?_upsertEntry {p : String → Bool} (hp : p key = true) (f : Option α → α)
    {l : List (String × α)}
    (hfirst : ∀ entry, l.find? (fun e => p e.1) = some entry → entry.1 = key) :
    ∃ a, (upsertEntry key f l).find? (fun entry => p entry.1) = some (key, f a) := by
  induction l with
  | nil => exact ⟨none, by simp [upsertEntry, hp]⟩
  | cons entry l ih =>
    obtain ⟨k, a⟩ := entry
    by_cases hk : k = key
    · exact ⟨some a, by simp [upsertEntry, hk, hp]⟩
    · cases h : p k with
      | true => exact absurd (hfirst (k, a) (by simp [h])) hk
      | false =>
        obtain ⟨b, hb⟩ := ih fun entry he => hfirst entry (by simp [h, he])
        exact ⟨b, by simp [upsertEntry, hk, h, hb]⟩

end Inserting

end StudioMake.OrderedMap
