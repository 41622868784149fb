import Mathlib.Data.List.Forall2
import Mathlib.Data.List.Nodup

/-!
# Sequences

What is done to a list element by element: runs over it that may stop at an error, lists that
correspond to one another, the indices of the elements that pass a test, and the last element for
which something is given.
-/

set_option autoImplicit false

namespace StudioMake

variable {ε α β γ : Type}

section Duplicates

theorem nodup_eraseDups [BEq α] [LawfulBEq α] (l : List α) : l.eraseDups.Nodup := by
  match l with
  | [] => simp
  | a :: rest =>
    rw [List.eraseDups_cons, List.nodup_cons]
    constructor
    · simp
    · exact nodup_eraseDups _
termination_by l.length
decreasing_by exact Nat.lt_succ_of_le (List.length_filter_le _ _)

theorem perm_eraseDups [DecidableEq α] {l l' : List α} (h : l.Perm l') :
    l.eraseDups.Perm l'.eraseDups := by
  rw [List.perm_ext_iff_of_nodup (nodup_eraseDups l) (nodup_eraseDups l')]
  intro a
  rw [List.mem_eraseDups, List.mem_eraseDups, h.mem_iff]

end Duplicates

theorem filterMap_cons_eq (f : α → Option β) (a : α) (l : List α) :
    (a :: l).filterMap f = (f a).toList ++ l.filterMap f := by
  rw [List.filterMap_cons]
  cases f a <;> rfl

section Runs

theorem bind_eq_ok_iff {x : Except ε α} {f : α → Except ε β} {b : β} :
    (x >>= f) = .ok b ↔ ∃ a, x = .ok a ∧ f a = .ok b := by
  cases x with
  | error e => simp [bind, Except.bind]
  | ok a => simp [bind, Except.bind]

theorem map_eq_ok_iff {x : Except ε α} {f : α → β} {b : β} :
    x.map f = .ok b ↔ ∃ a, x = .ok a ∧ f a = b := by
  cases x with
  | error e => simp [Except.map]
  | ok a => simp [Except.map]

theorem eq_ok_of_toOption {x : Except ε α} {a : α} (h : x.toOption = some a) :
    x = .ok a := by
  cases x with
  | error e => cases h
  | ok b =>
    cases h
    rfl

theorem mapM_eq_ok_iff {f : α → Except ε β} {l : List α} {l' : List β} :
    l.mapM f = .ok l' ↔ List.Forall₂ (fun a b => f a = .ok b) l l' := by
  induction l generalizing l' with
  | nil => simp [pure, Except.pure, eq_comm]
  | cons a l ih =>
    rw [List.mapM_cons, List.forall₂_cons_left_iff]
    simp only [bind_eq_ok_iff, ih]
    constructor
    · rintro ⟨b, hb, bs, hbs, h⟩
      cases h
      exact ⟨b, bs, hb, hbs, rfl⟩
    · rintro ⟨b, bs, hb, hbs, rfl⟩
      exact ⟨b, hb, bs, hbs, rfl⟩

theorem exists_of_mem_mapM {f : α → Except ε β} {l : List α} {l' : List β}
    (h : l.mapM f = .ok l') {b : β} (hb : b ∈ l') : ∃ a ∈ l, f a = .ok b := by
  induction mapM_eq_ok_iff.1 h with
  | nil => cases hb
  | @cons a b' _ _ hab hrest ih =>
    rcases List.mem_cons.1 hb with rfl | hb
    · exact ⟨a, List.mem_cons_self, hab⟩
    · obtain ⟨a', ha, hr⟩ := ih (mapM_eq_ok_iff.2 hrest) hb
      exact ⟨a', List.mem_cons_of_mem _ ha, hr⟩

theorem mapM_ok_of_mapM_some {f : α → Option β} {g : α → Except ε β}
    (hg : ∀ a b, f a = some b → g a = .ok b) {l : List α} {l' : List β}
    (h : l.mapM f = some l') : l.mapM g = .ok l' := by
  induction l generalizing l' with
  | nil =>
    cases h
    rfl
  | cons a l ih =>
    rw [List.mapM_cons] at h ⊢
    obtain ⟨b, hb, h⟩ := Option.bind_eq_some_iff.1 h
    obtain ⟨bs, hbs, h⟩ := Option.bind_eq_some_iff.1 h
    cases h
    rw [hg a b hb, ih hbs]
    rfl

theorem mapM_eq_some {f : α → Option β} {g : α → β} {l : List α}
    (h : ∀ a ∈ l, f a = some (g a)) : l.mapM f = some (l.map g) := by
  induction l with
  | nil => rfl
  | cons a l ih =>
    rw [List.mapM_cons, h a List.mem_cons_self, ih fun b hb => h b (List.mem_cons_of_mem a hb)]
    rfl

/-- Where something fails, it is with a failure of some kind. -/
def FailsOnly (p : ε → Prop) (x : Except ε α) : Prop := ∀ e, x = .error e → p e

namespace FailsOnly

variable {p : ε → Prop}

theorem ok (a : α) : FailsOnly p (.ok a : Except ε α) := by
  intro e he
  cases he

theorem error {e : ε} (h : p e) : FailsOnly p (.error e : Except ε α) := by
  intro e' he
  cases he
  exact h

theorem bind {x : Except ε α} {f : α → Except ε β} (hx : FailsOnly p x)
    (hf : ∀ a, FailsOnly p (f a)) : FailsOnly p (x >>= f) := by
  cases x with
  | error e => exact error (hx e rfl)
  | ok a => exact hf a

theorem map {x : Except ε α} (hx : FailsOnly p x) (f : α → β) : FailsOnly p (x.map f) := by
  cases x with
  | error e => exact error (hx e rfl)
  | ok a => exact ok (f a)

theorem mapM {f : α → Except ε β} {l : List α} (hf : ∀ a ∈ l, FailsOnly p (f a)) :
    FailsOnly p (l.mapM f) := by
  induction l with
  | nil => exact ok []
  | cons a l ih =>
    obtain ⟨ha, hl⟩ := List.forall_mem_cons.1 hf
    rw [List.mapM_cons]
    exact ha.bind fun b => (ih hl).bind fun bs => ok (b :: bs)

theorem foldlM {f : β → α → Except ε β} {l : List α} (hf : ∀ b, ∀ a ∈ l, FailsOnly p (f b a))
    (b : β) : FailsOnly p (l.foldlM f b) := by
  induction l generalizing b with
  | nil => exact ok b
  | cons a l ih =>
    rw [List.foldlM_cons]
    exact (hf b a List.mem_cons_self).bind fun b' =>
      ih (fun b a ha => hf b a (List.mem_cons_of_mem _ ha)) b'

end FailsOnly

end Runs

section Correspondence

theorem getElem?_of_forall₂ {R : α → β → Prop} {l : List α} {l' : List β}
    (h : List.Forall₂ R l l') {i : Nat} {a : α} (ha : l[i]? = some a) :
    ∃ b, l'[i]? = some b ∧ R a b := by
  induction h generalizing i with
  | nil => simp at ha
  | cons hr _ ih =>
    cases i with
    | zero =>
      cases ha
      exact ⟨_, rfl, hr⟩
    | succ i => exact ih ha

theorem flatMap_eq_of_forall₂ {f : α → List γ} {g : β → List γ} {l : List α}
    {l' : List β} (h : List.Forall₂ (fun a b => g b = f a) l l') : l'.flatMap g = l.flatMap f := by
  induction h with
  | nil => rfl
  | cons hab _ ih => rw [List.flatMap_cons, List.flatMap_cons, hab, ih]

/-- A list that is gone through without an error can be gone through in any order. What comes of an
element does not depend on its place. -/
theorem exists_map_of_mapM [Inhabited β] {f : α → Except ε β} {l : List α}
    {r : List β} (h : l.mapM f = .ok r) :
    ∃ g : α → β, r = l.map g ∧ ∀ l', l.Perm l' → l'.mapM f = .ok (l'.map g) := by
  have hr := mapM_eq_ok_iff.1 h
  refine ⟨fun a => ((f a).toOption).getD default, ?_, ?_⟩
  · clear h
    induction hr with
    | nil => rfl
    | cons hab _ ih => rw [List.map_cons, ← ih, hab]; rfl
  · intro l' hp
    rw [mapM_eq_ok_iff, List.forall₂_map_right_iff, List.forall₂_same]
    intro a ha
    obtain ⟨i, hi⟩ := List.mem_iff_getElem?.1 (hp.mem_iff.2 ha)
    obtain ⟨b, -, hb⟩ := getElem?_of_forall₂ hr hi
    rw [hb]
    rfl

end Correspondence

section Indices

theorem mem_indices_iff {p : α → Bool} {l : List α} {n i : Nat} :
    i ∈ ((l.zipIdx n).filter fun entry => p entry.1).map Prod.snd ↔
      n ≤ i ∧ ∃ a, l[i - n]? = some a ∧ p a = true := by
  simp only [List.mem_map, List.mem_filter, Prod.exists, exists_eq_right,
    List.mem_zipIdx_iff_le_and_getElem?_sub]
  constructor
  · rintro ⟨a, ⟨hn, ha⟩, hp⟩
    exact ⟨hn, a, ha, hp⟩
  · rintro ⟨hn, a, ha, hp⟩
    exact ⟨a, ⟨hn, ha⟩, hp⟩

theorem pairwise_indices (p : α × Nat → Bool) (l : List α) (n : Nat) :
    (((l.zipIdx n).filter p).map Prod.snd).Pairwise (· < ·) := by
  have hs : (((l.zipIdx n).filter p).map Prod.snd).Sublist ((l.zipIdx n).map Prod.snd) :=
    List.filter_sublist.map Prod.snd
  rw [List.zipIdx_map_snd] at hs
  exact List.Pairwise.sublist hs List.pairwise_lt_range'

theorem getLast?_eq_some_iff_of_pairwise {l : List Nat} {i : Nat} (h : l.Pairwise (· < ·)) :
    l.getLast? = some i ↔ i ∈ l ∧ ∀ j ∈ l, j ≤ i := by
  rcases List.eq_nil_or_concat' l with rfl | ⟨l, k, rfl⟩
  · simp
  · have hlt : ∀ j ∈ l, j < k := fun j hj =>
      (List.pairwise_append.1 h).2.2 j hj k (List.mem_singleton_self k)
    simp only [List.getLast?_concat, Option.some.injEq, List.mem_append, List.mem_singleton]
    constructor
    · rintro rfl
      exact ⟨.inr rfl, fun j hj => hj.elim (fun hj => Nat.le_of_lt (hlt j hj)) Nat.le_of_eq⟩
    · rintro ⟨hi | hi, hmax⟩
      · exact absurd (hlt i hi) (Nat.not_lt.2 (hmax k (.inr rfl)))
      · exact hi.symm

theorem indices_eq_of_forall₂ {p : α → Bool} {q : β → Bool} {l : List α} {l' : List β}
    (h : List.Forall₂ (fun a b => p a = q b) l l') (n : Nat) :
    ((l.zipIdx n).filter fun entry => p entry.1).map Prod.snd =
      ((l'.zipIdx n).filter fun entry => q entry.1).map Prod.snd := by
  induction h generalizing n with
  | nil => rfl
  | @cons a b l l' hab _ ih =>
    rw [List.zipIdx_cons, List.zipIdx_cons, List.filter_cons, List.filter_cons, hab]
    split
    · rw [List.map_cons, List.map_cons, ih]
    · exact ih (n + 1)

end Indices

section LastSome

variable {σ : Type}

/-- What the last item of a list gives for which `f` gives something. -/
def lastSome? (f : α → Option β) (l : List α) : Option β := l.reverse.findSome? f

theorem lastSome?_cons (f : α → Option β) (x : α) (l : List α) :
    lastSome? f (x :: l) = (lastSome? f l).or (f x) := by
  rw [lastSome?, List.reverse_cons, List.findSome?_append]
  cases h : f x <;> simp [lastSome?, h]

theorem lastSome?_append (f : α → Option β) (l l' : List α) :
    lastSome? f (l ++ l') = (lastSome? f l').or (lastSome? f l) := by
  rw [lastSome?, List.reverse_append, List.findSome?_append]
  rfl

theorem lastSome?_flatMap (f : β → Option γ) (g : α → List β) (l : List α) :
    lastSome? f (l.flatMap g) = lastSome? (fun x => lastSome? f (g x)) l := by
  induction l with
  | nil => rfl
  | cons x l ih => rw [List.flatMap_cons, lastSome?_append, lastSome?_cons, ih]

theorem lastSome?_eq_none_iff {f : α → Option β} {l : List α} :
    lastSome? f l = none ↔ ∀ x ∈ l, f x = none := by
  rw [lastSome?, List.findSome?_eq_none_iff]
  constructor
  · intro h x hx
    exact h x (List.mem_reverse.2 hx)
  · intro h x hx
    exact h x (List.mem_reverse.1 hx)

theorem lastSome?_eq_getLast? (f : α → Option β) (l : List α) :
    lastSome? f l = (l.filterMap f).getLast? := by
  rw [lastSome?, ← List.head?_filterMap, List.filterMap_reverse, List.head?_reverse]

theorem lastSome?_map (f : α → Option β) (g : β → γ) (l : List α) :
    lastSome? (fun x => (f x).map g) l = (lastSome? f l).map g := by
  induction l with
  | nil => rfl
  | cons x l ih =>
    rw [lastSome?_cons, lastSome?_cons, ih]
    cases lastSome? f l <;> rfl

theorem lastSome?_comp (f : β → Option γ) (g : α → β) (l : List α) :
    lastSome? f (l.map g) = lastSome? (fun x => f (g x)) l := by
  rw [lastSome?, ← List.map_reverse, List.findSome?_map]
  rfl

theorem get_foldl_eq_lastSome? {f : α → Option β} (get : σ → Option β) {step : σ → α → σ}
    (h : ∀ s x, get (step s x) = (f x).or (get s)) (l : List α) (s : σ) :
    get (l.foldl step s) = (lastSome? f l).or (get s) := by
  induction l generalizing s with
  | nil => rfl
  | cons x l ih => rw [List.foldl_cons, ih, h, lastSome?_cons, Option.or_assoc]

theorem get_foldl_eq_getD {f : α → Option β} (get : σ → β) {step : σ → α → σ}
    (h : ∀ s x, get (step s x) = (f x).getD (get s)) (l : List α) (s : σ) :
    get (l.foldl step s) = (lastSome? f l).getD (get s) := by
  have hsome : ∀ s x, some (get (step s x)) = (f x).or (some (get s)) := by
    intro s x
    rw [h]
    cases f x <;> rfl
  have hl := get_foldl_eq_lastSome? (fun s => some (get s)) hsome l s
  cases hf : lastSome? f l with
  | none =>
    rw [hf] at hl
    exact Option.some.inj hl
  | some b =>
    rw [hf] at hl
    exact Option.some.inj hl

/-- What some step brings about and every step keeps. -/
theorem foldl_iff_exists (p : σ → Prop) {q : α → Prop} {step : σ → α → σ}
    (h : ∀ s x, p (step s x) ↔ q x ∨ p s) (l : List α) (s : σ) :
    p (l.foldl step s) ↔ (∃ x ∈ l, q x) ∨ p s := by
  induction l generalizing s with
  | nil => simp
  | cons x l ih =>
    rw [List.foldl_cons, ih, h]
    simp only [List.mem_cons, exists_eq_or_imp]
    rw [or_left_comm, or_assoc]

end LastSome

end StudioMake
