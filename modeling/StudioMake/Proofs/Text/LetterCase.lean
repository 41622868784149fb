import Mathlib.Data.List.Forall2
import StudioMake.Text.Case
import StudioMake.Text.Reader

/-!
# Readers and letter case

Two texts that differ in the case of ASCII letters only have their blanks, signs and separators at
the same places. `Respects` says that a reader takes such texts alike; every combinator keeps it.
-/

set_option autoImplicit false

namespace StudioMake.Text

theorem isAlpha_iff {c : Char} :
    c.isAlpha = true ↔ 65 ≤ c.toNat ∧ c.toNat ≤ 90 ∨ 97 ≤ c.toNat ∧ c.toNat ≤ 122 := by
  have h : c.isAlpha = (decide (65 ≤ c.val ∧ c.val ≤ 90) ||
      decide (97 ≤ c.val) && decide (c.val ≤ 122)) := rfl
  simp only [h, Bool.or_eq_true, Bool.and_eq_true, decide_eq_true_eq, UInt32.le_iff_toNat_le]
  rfl

theorem toNat_toLower (c : Char) :
    c.toLower.toNat = if 65 ≤ c.toNat ∧ c.toNat ≤ 90 then c.toNat + 32 else c.toNat := by
  have hu : (c.val ≥ 'A'.val ∧ c.val ≤ 'Z'.val) ↔ 65 ≤ c.toNat ∧ c.toNat ≤ 90 := by
    simp only [ge_iff_le, UInt32.le_iff_toNat_le]
    rfl
  unfold Char.toLower
  by_cases h : c.val ≥ 'A'.val ∧ c.val ≤ 'Z'.val
  · rw [dif_pos h, if_pos (hu.1 h)]
    have hn := hu.1 h
    show (c.val + 32).toNat = c.val.toNat + 32
    have hv : c.toNat = c.val.toNat := rfl
    rw [UInt32.toNat_add, Nat.mod_eq_of_lt]
    · rfl
    · rw [show (32 : UInt32).toNat = 32 from rfl]
      omega
  · rw [dif_neg h, if_neg (fun hn => h (hu.2 hn))]

theorem eq_or_isAlpha {c d : Char} (h : c.toLower = d.toLower) :
    c = d ∨ c.isAlpha = true ∧ d.isAlpha = true := by
  have hn := congrArg Char.toNat h
  rw [toNat_toLower, toNat_toLower] at hn
  by_cases he : c.toNat = d.toNat
  · exact .inl (Char.toNat_inj.1 he)
  · right
    rw [isAlpha_iff, isAlpha_iff]
    split at hn <;> split at hn <;> omega

theorem isAlpha_eq {c d : Char} (h : c.toLower = d.toLower) : c.isAlpha = d.isAlpha := by
  rcases eq_or_isAlpha h with rfl | ⟨hc, hd⟩
  · rfl
  · rw [hc, hd]

theorem eq_iff_eq {c d sign : Char} (h : c.toLower = d.toLower) (hs : sign.isAlpha = false) :
    c = sign ↔ d = sign := by
  rcases eq_or_isAlpha h with rfl | ⟨hc, hd⟩
  · rfl
  · constructor
    · rintro rfl
      rw [hc] at hs
      cases hs
    · rintro rfl
      rw [hd] at hs
      cases hs

theorem isBlank_eq_false_of_isAlpha {c : Char} (h : c.isAlpha = true) : isBlank c = false := by
  rw [isAlpha_iff] at h
  simp only [isBlank, blankRanges, List.any_cons, List.any_nil, Bool.or_false,
    Bool.or_eq_false_iff, Bool.and_eq_false_iff, decide_eq_false_iff_not]
  omega

theorem isBlank_eq {c d : Char} (h : c.toLower = d.toLower) : isBlank c = isBlank d := by
  rcases eq_or_isAlpha h with rfl | ⟨hc, hd⟩
  · rfl
  · rw [isBlank_eq_false_of_isAlpha hc, isBlank_eq_false_of_isAlpha hd]

abbrev Alike (l l' : List Char) : Prop := List.Forall₂ (fun c d => c.toLower = d.toLower) l l'

theorem alike_iff {l l' : List Char} : Alike l l' ↔ l.map Char.toLower = l'.map Char.toLower := by
  rw [← List.forall₂_eq_eq_eq, List.forall₂_map_left_iff, List.forall₂_map_right_iff]

theorem sameIgnoringCase_iff_alike {a b : String} :
    sameIgnoringCase a b = true ↔ Alike a.toList b.toList := by
  rw [sameIgnoringCase_iff, alike_iff, lower, lower, String.ofList_inj]

namespace Alike

variable {l l' a b : List Char} {sep : Char}

theorem symm (h : Alike l l') : Alike l' l := by
  rw [alike_iff] at h ⊢
  exact h.symm

theorem append {m m' : List Char} (h : Alike l l') (hm : Alike m m') : Alike (l ++ m) (l' ++ m') :=
  List.rel_append h hm

theorem all_eq {p : Char → Bool} (hp : ∀ c d : Char, c.toLower = d.toLower → p c = p d)
    (h : Alike l l') : l.all p = l'.all p := by
  induction h with
  | nil => rfl
  | cons hc _ ih => rw [List.all_cons, List.all_cons, hp _ _ hc, ih]

theorem takeWhile {p : Char → Bool} (hp : ∀ c d : Char, c.toLower = d.toLower → p c = p d)
    (h : Alike l l') : Alike (l.takeWhile p) (l'.takeWhile p) := by
  induction h with
  | nil => exact .nil
  | @cons c d _ _ hc _ ih =>
    rw [List.takeWhile_cons, List.takeWhile_cons, hp c d hc]
    split
    · exact .cons hc ih
    · exact .nil

theorem dropWhile {p : Char → Bool} (hp : ∀ c d : Char, c.toLower = d.toLower → p c = p d)
    (h : Alike l l') : Alike (l.dropWhile p) (l'.dropWhile p) := by
  induction h with
  | nil => exact .nil
  | @cons c d _ _ hc h ih =>
    rw [List.dropWhile_cons, List.dropWhile_cons, hp c d hc]
    split
    · exact ih
    · exact .cons hc h

theorem skipBlanks (h : Alike l l') : Alike (skipBlanks l) (skipBlanks l') :=
  h.dropWhile fun _ _ => isBlank_eq

theorem mem_iff (h : Alike l l') (hs : sep.isAlpha = false) : sep ∈ l ↔ sep ∈ l' := by
  induction h with
  | nil => rfl
  | cons hc _ ih =>
    rw [List.mem_cons, List.mem_cons, ih, eq_comm, eq_iff_eq hc hs, eq_comm]

theorem cut? (h : Alike l l') (hs : sep.isAlpha = false) (hc : Text.cut? sep l = some (a, b)) :
    ∃ a' b', Text.cut? sep l' = some (a', b') ∧ Alike a a' ∧ Alike b b' := by
  induction h generalizing a with
  | nil => cases hc
  | @cons c d l l' hcd h ih =>
    rw [Text.cut?] at hc ⊢
    by_cases he : c = sep
    · rw [if_pos he] at hc
      cases hc
      exact ⟨[], l', if_pos ((eq_iff_eq hcd hs).1 he), .nil, h⟩
    · rw [if_neg he] at hc
      obtain ⟨⟨a₁, b₁⟩, hm, hr⟩ := Option.map_eq_some_iff.1 hc
      cases hr
      obtain ⟨a', b', hm', ha, hb⟩ := ih hm
      refine ⟨d :: a', b', ?_, .cons hcd ha, hb⟩
      rw [if_neg fun hd => he ((eq_iff_eq hcd hs).2 hd), hm']
      rfl

theorem cut?_eq_none (h : Alike l l') (hs : sep.isAlpha = false) (hc : Text.cut? sep l = none) :
    Text.cut? sep l' = none := by
  rw [cut?_eq_none_iff] at hc ⊢
  rwa [← h.mem_iff hs]

end Alike

namespace Reader

variable {α β γ : Type} {R : α → α → Prop} {S : β → β → Prop}

/-- From texts that are the same up to letter case the reader takes related things, and leaves
texts that are the same again. -/
def Respects (R : α → α → Prop) (r : Reader α) : Prop :=
  ∀ l l' a rest, Alike l l' → r.Reads l a rest →
    ∃ a' rest', r.Reads l' a' rest' ∧ R a a' ∧ Alike rest rest'

namespace Respects

variable {r : Reader α} {s : Reader β}

theorem eq_none (h : Respects R r) {l l' : List Char} (hl : Alike l l') (hn : r l = none) :
    r l' = none := by
  rw [eq_none_iff] at hn ⊢
  intro a rest hr
  obtain ⟨a', rest', hr', -⟩ := h l' l a rest hl.symm hr
  exact hn a' rest' hr'

theorem just {c : Char} (hc : c.isAlpha = false) : Respects (fun _ _ => True) (just c) := by
  intro l l' u rest hl hr
  rw [reads_just] at hr
  subst hr
  cases hl with
  | cons hd hrest =>
    exact ⟨(), _, reads_just.2 (congrArg (· :: _) ((eq_iff_eq hd hc).1 rfl)), trivial, hrest⟩

theorem upTo {sep : Char} (hs : sep.isAlpha = false) : Respects Alike (upTo sep) := by
  intro l l' a rest hl hr
  rw [reads_upTo] at hr
  obtain ⟨rfl, hn⟩ := hr
  obtain ⟨a', rest', hc, ha, hrest⟩ := hl.cut? hs (cut?_append hn rest)
  exact ⟨a', rest', reads_upTo.2 (eq_of_cut? hc), ha, hrest⟩

theorem run {p : Char → Bool} (hp : ∀ c d : Char, c.toLower = d.toLower → p c = p d) :
    Respects Alike (run p) := by
  intro l l' a rest hl hr
  obtain ⟨hne, rfl, rfl⟩ := reads_run.1 hr
  have ht := hl.takeWhile hp
  refine ⟨_, _, reads_run.2 ⟨?_, rfl, rfl⟩, ht, hl.dropWhile hp⟩
  intro he
  rw [he] at ht
  exact hne (List.forall₂_nil_right_iff.1 ht)

theorem map (h : Respects R r) {f : α → β} (hf : ∀ a a', R a a' → S (f a) (f a')) :
    Respects S (r.map f) := by
  intro l l' b rest hl hr
  obtain ⟨a, hread, rfl⟩ := reads_map.1 hr
  obtain ⟨a', rest', hr', ha, hrest⟩ := h l l' a rest hl hread
  exact ⟨f a', rest', reads_map.2 ⟨a', hr', rfl⟩, hf a a' ha, hrest⟩

theorem filter (h : Respects R r) {p : α → Bool} (hp : ∀ a a', R a a' → p a = true → p a' = true) :
    Respects R (r.filter p) := by
  intro l l' a rest hl hr
  obtain ⟨hr, ha⟩ := reads_filter.1 hr
  obtain ⟨a', rest', hr', haa, hrest⟩ := h l l' a rest hl hr
  exact ⟨a', rest', reads_filter.2 ⟨hr', hp a a' haa ha⟩, haa, hrest⟩

theorem andThen (h : Respects R r) (hs : Respects S s) :
    Respects (fun a a' => R a.1 a'.1 ∧ S a.2 a'.2) (r.andThen s) := by
  rintro l l' ⟨a, b⟩ rest hl hr
  obtain ⟨m, hr, hb⟩ := reads_andThen.1 hr
  obtain ⟨a', m', hr', ha, hm⟩ := h l l' a m hl hr
  obtain ⟨b', rest', hb', hbb, hrest⟩ := hs m m' b rest hm hb
  exact ⟨(a', b'), rest', reads_andThen.2 ⟨m', hr', hb'⟩, ⟨ha, hbb⟩, hrest⟩

theorem left (h : Respects R r) (hs : Respects S s) : Respects R (r.left s) :=
  (h.andThen hs).map fun _ _ => And.left

theorem right (h : Respects R r) (hs : Respects S s) : Respects S (r.right s) :=
  (h.andThen hs).map fun _ _ => And.right

theorem delimited {T : γ → γ → Prop} {t : Reader γ} (h : Respects R r) (hs : Respects S s)
    (ht : Respects T t) : Respects R (r.delimited s t) :=
  (hs.right h).left ht

theorem orElse {s : Reader α} (h : Respects R r) (hs : Respects R s) :
    Respects R (r.orElse s) := by
  intro l l' a rest hl hr
  rcases reads_orElse.1 hr with hr | ⟨hn, hr⟩
  · obtain ⟨a', rest', hr', ha, hrest⟩ := h l l' a rest hl hr
    exact ⟨a', rest', reads_orElse.2 (.inl hr'), ha, hrest⟩
  · obtain ⟨a', rest', hr', ha, hrest⟩ := hs l l' a rest hl hr
    exact ⟨a', rest', reads_orElse.2 (.inr ⟨h.eq_none hl hn, hr'⟩), ha, hrest⟩

theorem padded (h : Respects R r) : Respects R r.padded := by
  intro l l' a rest hl hr
  obtain ⟨m, hread, rfl⟩ := reads_padded.1 hr
  obtain ⟨a', m', hr', ha, hm⟩ := h _ _ a m hl.skipBlanks hread
  exact ⟨a', _, reads_padded.2 ⟨m', hr', rfl⟩, ha, hm.skipBlanks⟩

theorem steps (hs : Respects S s) {join : α → β → α}
    (hj : ∀ a a' b b', R a a' → S b b' → R (join a b) (join a' b')) {a a' b : α}
    {l l' rest : List Char} (h : Steps s join a l b rest) (hl : Alike l l') (ha : R a a') :
    ∃ b' rest', Steps s join a' l' b' rest' ∧ R b b' ∧ Alike rest rest' := by
  induction h with
  | refl => exact ⟨a', l', .refl, ha, hl⟩
  | snoc _ hx ih =>
    obtain ⟨b', m', h', hb, hm⟩ := ih
    obtain ⟨x', rest', hx', hxx, hrest⟩ := hs _ _ _ _ hm hx
    exact ⟨_, rest', h'.snoc hx', hj _ _ _ _ hb hxx, hrest⟩

theorem foldl (h : Respects R r) (hs : Respects S s) {join : α → β → α}
    (hj : ∀ a a' b b', R a a' → S b b' → R (join a b) (join a' b')) :
    Respects R (r.foldl s join) := by
  intro l l' b rest hl hr
  obtain ⟨a, m, hr, hsteps, hn⟩ := reads_foldl.1 hr
  obtain ⟨a', m', hr', ha, hm⟩ := h l l' a m hl hr
  obtain ⟨b', rest', hsteps', hb, hrest⟩ := hs.steps hj hsteps hm ha
  exact ⟨b', rest', reads_foldl.2 ⟨a', m', hr', hsteps', hs.eq_none hrest hn⟩, hb, hrest⟩

/-- A reader that reads itself respects letter case if its body keeps it. -/
theorem recursive {body : Reader α → Reader α} (hb : ∀ r, Respects R r → Respects R (body r)) :
    Respects R (recursive body) := by
  have hbelow : ∀ n, Respects R ((Reader.recursive body).below n) := by
    intro n
    induction n using Nat.strongRecOn with
    | ind n ih =>
      intro l l' a rest hl hr
      obtain ⟨hn, hr⟩ := reads_below.1 hr
      rw [reads_recursive] at hr
      obtain ⟨a', rest', hr', ha, hrest⟩ := hb _ (ih l.length hn) l l' a rest hl hr
      have hlen : l.length = l'.length := hl.length_eq
      rw [hlen] at hr' hn
      exact ⟨a', rest', reads_below.2 ⟨hn, reads_recursive.2 hr'⟩, ha, hrest⟩
  intro l l' a rest hl hr
  obtain ⟨a', rest', hr', h⟩ :=
    hbelow (l.length + 1) l l' a rest hl (reads_below.2 ⟨Nat.lt_succ_self _, hr⟩)
  exact ⟨a', rest', (reads_below.1 hr').2, h⟩

end Respects

end Reader

end StudioMake.Text
