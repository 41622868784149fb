import StudioMake.Proofs.Condition.Layout

/-!
# The parser of conditions and its grammar

Each reader takes exactly the layouts of its level of the grammar, provided that the reader of
whole conditions does so on every shorter text.
-/

set_option autoImplicit false

namespace StudioMake.Condition

open Text
open Text.Reader (just Steps)

variable {l rest : List Char} {c : Condition}

theorem reads_comparator {f : Operand → Operand → Condition} :
    comparator.padded.Reads l f rest ↔ ∃ t : Token, t.comparison? = some f ∧ TokenAt t l rest := by
  simp only [comparator, Reader.reads_padded, Reader.reads_orElse, Reader.reads_map,
    Reader.reads_right, Reader.reads_just, Reader.eq_none_iff]
  constructor
  · intro h
    rcases h with ⟨m, ⟨_, ⟨_, _, hl, rfl⟩, rfl⟩ | ⟨-, _, ⟨_, _, hl, rfl⟩, rfl⟩, hr⟩
    · exact ⟨.equal, rfl, (tokenAt_sign_iff rfl).2 ⟨m, hl, hr⟩⟩
    · exact ⟨.notEqual, rfl, (tokenAt_sign_iff rfl).2 ⟨m, hl, hr⟩⟩
  · intro h
    obtain ⟨t, ht, h⟩ := h
    cases t <;> cases ht
    · obtain ⟨m, hl, hr⟩ := (tokenAt_sign_iff rfl).1 h
      exact ⟨m, .inl ⟨(), ⟨(), _, hl, rfl⟩, rfl⟩, hr⟩
    · obtain ⟨m, hl, hr⟩ := (tokenAt_sign_iff rfl).1 h
      refine ⟨m, .inr ⟨?_, (), ⟨(), _, hl, rfl⟩, rfl⟩, hr⟩
      intro _ _ h
      obtain ⟨_, ⟨_, _, hl', -⟩, -⟩ := h
      rw [hl] at hl'
      cases hl'

theorem reads_comparison :
    comparison.padded.Reads l c rest ↔
      ∃ (t : Token) (f : Operand → Operand → Condition) (a b : String) (m k : List Char),
        t.comparison? = some f ∧ c = f (Operand.split a) (Operand.split b) ∧
          TokenAt (.quoted a) l m ∧ TokenAt t m k ∧ TokenAt (.quoted b) k rest := by
  rw [Reader.reads_padded]
  simp only [comparison, Reader.reads_map, Prod.exists, Reader.reads_andThen, reads_quoted,
    reads_comparator, tokenAt_skipBlanks]
  constructor
  · intro h
    obtain ⟨_, ⟨_, f, _, ⟨k, ⟨m, ⟨a, rfl, ha⟩, t, ht, hm⟩, b, rfl, hb⟩, rfl⟩, rfl⟩ := h
    rw [hb.skipBlanks_rest]
    exact ⟨t, f, a, b, m, k, ht, rfl, ha, hm, hb⟩
  · intro h
    obtain ⟨t, f, a, b, m, k, ht, rfl, ha, hm, hb⟩ := h
    exact ⟨rest, ⟨_, f, _, ⟨k, ⟨m, ⟨a, rfl, ha⟩, t, ht, hm⟩, b, rfl, hb⟩, rfl⟩,
      hb.skipBlanks_rest.symm⟩

theorem reads_predicate {p q : Predicate} :
    (predicate p).Reads l q rest ↔ q = p ∧ TokenAt (.predicate p) l rest := by
  simp only [predicate, Reader.reads_map, reads_keyword (t := .predicate p) rfl]
  constructor
  · intro h
    obtain ⟨_, h, rfl⟩ := h
    exact ⟨rfl, h⟩
  · intro h
    exact ⟨(), h.2, h.1⟩

theorem reads_anyPredicate {p : Predicate} :
    ((predicate .pathExists).orElse (predicate .hasTrailingSlash)).Reads l p rest ↔
      TokenAt (.predicate p) l rest := by
  simp only [Reader.reads_orElse, Reader.eq_none_iff, reads_predicate]
  constructor
  · intro h
    rcases h with ⟨rfl, h⟩ | ⟨-, rfl, h⟩ <;> exact h
  · intro h
    cases p with
    | pathExists => exact .inl ⟨rfl, h⟩
    | hasTrailingSlash =>
      refine .inr ⟨?_, rfl, h⟩
      intro _ _ h'
      exact absurd (h.same_keyword rfl rfl h'.2) (by decide)

theorem reads_application :
    application.padded.Reads l c rest ↔
      ∃ (p : Predicate) (a : String) (m k k' : List Char), c = .call p (Operand.split a) ∧
        TokenAt (.predicate p) l m ∧ TokenAt .opening m k ∧ TokenAt (.quoted a) k k' ∧
          TokenAt .closing k' rest := by
  rw [Reader.reads_padded]
  simp only [application, Reader.delimited, Reader.reads_map, Prod.exists, Reader.reads_andThen,
    Reader.reads_left, Reader.reads_right, Reader.reads_just, reads_anyPredicate, reads_quoted,
    tokenAt_skipBlanks]
  constructor
  · intro h
    obtain ⟨m', ⟨p, _, ⟨m, hp, _, _, ⟨_, k, rfl, a, rfl, ha⟩, rfl⟩, rfl⟩, rfl⟩ := h
    refine ⟨p, a, _, skipBlanks k, _, rfl, hp, ?_, tokenAt_skipBlanks.2 ha, ?_⟩
    · exact (tokenAt_sign_iff rfl).2 ⟨k, hp.skipBlanks_rest, rfl⟩
    · exact (tokenAt_sign_iff rfl).2 ⟨m', ha.skipBlanks_rest, rfl⟩
  · intro h
    obtain ⟨p, a, m, k, k', rfl, hp, ho, ha, hc⟩ := h
    obtain ⟨j, hj, rfl⟩ := (tokenAt_sign_iff rfl).1 ho
    obtain ⟨j', hj', rfl⟩ := (tokenAt_sign_iff rfl).1 hc
    rw [hp.skipBlanks_rest] at hj
    rw [ha.skipBlanks_rest] at hj'
    exact ⟨j', ⟨p, _, ⟨m, hp, (), k', ⟨(), j, hj, a, rfl, tokenAt_skipBlanks.1 ha⟩, hj'⟩, rfl⟩,
      rfl⟩

theorem reads_group {r : Reader Condition} :
    (group r).padded.Reads l c rest ↔
      ∃ m k, TokenAt .opening l m ∧ r.Reads m c k ∧ TokenAt .closing k rest := by
  rw [Reader.reads_padded]
  simp only [group, Reader.delimited, Reader.reads_left, Reader.reads_right,
    reads_sign (t := .opening) rfl, reads_sign (t := .closing) rfl, tokenAt_skipBlanks]
  constructor
  · intro h
    obtain ⟨_, ⟨_, k, ⟨_, m, ho, hr⟩, hc⟩, rfl⟩ := h
    rw [hc.skipBlanks_rest]
    exact ⟨m, k, ho, hr, hc⟩
  · intro h
    obtain ⟨m, k, ho, hr, hc⟩ := h
    exact ⟨rest, ⟨(), k, ⟨(), m, ho, hr⟩, hc⟩, hc.skipBlanks_rest.symm⟩

theorem reads_atom {r : Reader Condition} :
    (atom r).Reads l c rest ↔
      comparison.padded.Reads l c rest ∨ application.padded.Reads l c rest ∨
        (group r).padded.Reads l c rest := by
  simp only [atom, Reader.padded_orElse, Reader.reads_orElse, Reader.eq_none_iff]
  constructor
  · intro h
    rcases h with h | ⟨-, h | ⟨-, h⟩⟩
    · exact .inl h
    · exact .inr (.inl h)
    · exact .inr (.inr h)
  · intro h
    rcases h with h | h | h
    · exact .inl h
    · refine .inr ⟨?_, .inl h⟩
      obtain ⟨_, _, _, _, _, -, hp, -⟩ := reads_application.1 h
      intro _ _ h'
      obtain ⟨_, _, _, _, _, _, -, -, hq, -⟩ := reads_comparison.1 h'
      exact absurd (hp.same_start hq) (by simp [Token.start])
    · obtain ⟨_, _, ho, -⟩ := reads_group.1 h
      refine .inr ⟨?_, .inr ⟨?_, h⟩⟩
      · intro _ _ h'
        obtain ⟨_, _, _, _, _, _, -, -, hq, -⟩ := reads_comparison.1 h'
        exact absurd (ho.same_start hq) (by simp [Token.start])
      · intro _ _ h'
        obtain ⟨_, _, _, _, _, -, hp, -⟩ := reads_application.1 h'
        exact absurd (ho.same_start hp) (by simp [Token.start])

theorem not_bang_of_reads_atom {r : Reader Condition} {m : List Char}
    (h : (atom r).Reads l c rest) : ¬ TokenAt .bang l m := by
  intro hb
  rcases reads_atom.1 h with h | h | h
  · obtain ⟨_, _, _, _, _, _, -, -, hq, -⟩ := reads_comparison.1 h
    exact absurd (hb.same_start hq) (by simp [Token.start])
  · obtain ⟨_, _, _, _, _, -, hp, -⟩ := reads_application.1 h
    exact absurd (hb.same_start hp) (by simp [Token.start])
  · obtain ⟨_, _, ho, -⟩ := reads_group.1 h
    exact absurd (hb.same_start ho) (by simp [Token.start])

theorem reads_negation {r : Reader Condition} :
    (negation r).Reads l c rest ↔
      (∃ d m, TokenAt .bang l m ∧ (negation r).Reads m d rest ∧ c = .not d) ∨
        (atom r).Reads l c rest := by
  have hself : (negation r).Reads l c rest ↔
      ((((just '!').padded.right ((negation r).below l.length)).map .not).orElse
        (atom r)).Reads l c rest := Reader.reads_recursive
  rw [hself]
  simp only [Reader.reads_orElse, Reader.eq_none_iff, Reader.reads_map, Reader.reads_right,
    reads_sign (t := .bang) rfl, Reader.reads_below]
  constructor
  · intro h
    rcases h with ⟨d, ⟨_, m, hb, -, hr⟩, rfl⟩ | ⟨-, h⟩
    · exact .inl ⟨d, m, hb, hr, rfl⟩
    · exact .inr h
  · intro h
    rcases h with ⟨d, m, hb, hr, rfl⟩ | h
    · exact .inl ⟨d, ⟨(), m, hb, hb.length_lt, hr⟩, rfl⟩
    · refine .inr ⟨?_, h⟩
      intro _ _ h'
      obtain ⟨_, ⟨_, m, hb, -⟩, -⟩ := h'
      exact not_bang_of_reads_atom h hb

def Rank.joints : Rank → List Token
  | .atom => []
  | .negation => []
  | .conjunction => [.and]
  | .disjunction => [.and, .or]

/-- No token that would carry on the condition stands at the start of the rest. -/
def Rank.Ends (rank : Rank) (rest : List Char) : Prop :=
  ∀ t ∈ rank.joints, ∀ m, ¬ TokenAt t rest m

theorem Rank.ends_of_closing {m : List Char} (h : TokenAt .closing l m) (rank : Rank) :
    rank.Ends l := by
  intro t ht k hk
  have hstart := h.same_start hk
  cases rank <;> simp only [Rank.joints, List.mem_cons, List.not_mem_nil, or_false] at ht
  · subst ht
    simp [Token.start] at hstart
  · rcases ht with rfl | rfl <;> simp [Token.start] at hstart

/-- On texts shorter than `n` the reader takes exactly what the grammar has at one level. -/
structure ReadsExactly (rank : Rank) (n : Nat) (r : Reader Condition) : Prop where
  sound {l : List Char} {c : Condition} {rest : List Char} (hl : l.length < n)
    (h : r.Reads l c rest) :
    skipBlanks rest = rest ∧ ∃ ts, Derives rank ts c ∧ LaidOut ts l rest
  complete {l : List Char} {c : Condition} {rest : List Char} {ts : List Token}
    (hl : l.length < n) (hd : Derives rank ts c) (h : LaidOut ts l rest)
    (hr : skipBlanks rest = rest) (he : rank.Ends rest) : r.Reads l c rest

theorem readsExactly_zero (rank : Rank) (r : Reader Condition) : ReadsExactly rank 0 r where
  sound hl := absurd hl (Nat.not_lt_zero _)
  complete hl := absurd hl (Nat.not_lt_zero _)

theorem readsExactly_atom {n : Nat} {r : Reader Condition} (h : ReadsExactly .disjunction n r) :
    ReadsExactly .atom (n + 1) (atom r) where
  sound := by
    intro l c rest hl hr
    rcases reads_atom.1 hr with hr | hr | hr
    · obtain ⟨t, f, a, b, m, k, ht, rfl, ha, hm, hb⟩ := reads_comparison.1 hr
      have hs := hb.skipBlanks_rest
      refine ⟨hs, _, .comparison ht a b, ?_⟩
      simp only [laidOut_cons_iff hs, laidOut_nil_iff hs]
      exact ⟨m, ha, k, hm, rest, hb, hs⟩
    · obtain ⟨p, a, m, k, k', rfl, hp, ho, ha, hc⟩ := reads_application.1 hr
      have hs := hc.skipBlanks_rest
      refine ⟨hs, _, .call p a, ?_⟩
      simp only [laidOut_cons_iff hs, laidOut_nil_iff hs]
      exact ⟨m, hp, k, ho, k', ha, rest, hc, hs⟩
    · obtain ⟨m, k, ho, hr, hc⟩ := reads_group.1 hr
      have hs := hc.skipBlanks_rest
      have hm := ho.length_lt
      obtain ⟨hk, ts, hd, ht⟩ := h.sound (by omega) hr
      refine ⟨hs, _, .group hd, ?_⟩
      rw [laidOut_cons_iff hs]
      refine ⟨m, ho, ?_⟩
      rw [laidOut_append_iff hs]
      exact ⟨k, hk, ht, (laidOut_singleton_iff hs).2 hc⟩
  complete := by
    intro l c rest ts hl hd hlaid hs _
    rw [reads_atom]
    cases hd with
    | comparison ht a b =>
      simp only [laidOut_cons_iff hs, laidOut_nil_iff hs] at hlaid
      obtain ⟨m, ha, k, hm, _, hb, hk⟩ := hlaid
      rw [hb.skipBlanks_rest] at hk
      exact .inl (reads_comparison.2 ⟨_, _, a, b, m, k, ht, rfl, ha, hm, hk ▸ hb⟩)
    | call p a =>
      simp only [laidOut_cons_iff hs, laidOut_nil_iff hs] at hlaid
      obtain ⟨m, hp, k, ho, k', ha, _, hc, hk⟩ := hlaid
      rw [hc.skipBlanks_rest] at hk
      exact .inr (.inl (reads_application.2 ⟨p, a, m, k, k', rfl, hp, ho, ha, hk ▸ hc⟩))
    | group hd =>
      obtain ⟨m, ho, hm⟩ := (laidOut_cons_iff hs).1 hlaid
      obtain ⟨k, hk, ht, hc⟩ := (laidOut_append_iff hs).1 hm
      rw [laidOut_singleton_iff hs] at hc
      have hml := ho.length_lt
      have hr := h.complete (by omega) hd ht hk (Rank.ends_of_closing hc _)
      exact .inr (.inr (reads_group.2 ⟨m, k, ho, hr, hc⟩))

theorem readsExactly_negation {n : Nat} {r : Reader Condition}
    (h : ReadsExactly .atom n (atom r)) : ReadsExactly .negation n (negation r) := by
  have hall : ∀ k ≤ n, ReadsExactly .negation k (negation r) := by
    intro k
    induction k with
    | zero =>
      intro _
      exact readsExactly_zero _ _
    | succ k ih =>
      intro hk
      have ih := ih (by omega)
      constructor
      · intro l c rest hl hr
        rcases reads_negation.1 hr with ⟨d, m, hb, hm, rfl⟩ | hr
        · have hlt := hb.length_lt
          obtain ⟨hs, ts, hd, ht⟩ := ih.sound (by omega) hm
          exact ⟨hs, _, .not hd, (laidOut_cons_iff hs).2 ⟨m, hb, ht⟩⟩
        · obtain ⟨hs, ts, hd, ht⟩ := h.sound (by omega) hr
          exact ⟨hs, ts, .atom hd, ht⟩
      · intro l c rest ts hl hd ht hs he
        rw [reads_negation]
        cases hd with
        | atom hd => exact .inr (h.complete (by omega) hd ht hs (by simp [Rank.Ends, Rank.joints]))
        | not hd =>
          obtain ⟨m, hb, ht⟩ := (laidOut_cons_iff hs).1 ht
          have hm := hb.length_lt
          exact .inl ⟨_, m, hb, ih.complete (by omega) hd ht hs he, rfl⟩
  exact hall n (Nat.le_refl n)

section Chain

variable {lower : Rank} {n : Nat} {r : Reader Condition} {t : Token} {word : String}
  {join : Condition → Condition → Condition} {a b : Condition} {m : List Char}

theorem chain_of_steps (ht : t.keyword? = some word) (h : ReadsExactly lower n r)
    (hs : Steps ((keyword word).right r) join a l b m) (hl : l.length < n)
    (hb : skipBlanks l = l) :
    skipBlanks m = m ∧ ∃ operands : List (List Token × Condition),
      (∀ operand ∈ operands, Derives lower operand.1 operand.2) ∧
        b = operands.foldl (fun left operand => join left operand.2) a ∧
          LaidOut (joined t operands) l m := by
  induction hs with
  | refl => exact ⟨hb, [], by simp, rfl, (laidOut_nil_iff hb).2 hb⟩
  | @snoc _ _ _ x hs hx ih =>
    obtain ⟨hm, operands, ho, rfl, hlaid⟩ := ih
    obtain ⟨_, k, hk, hx⟩ := Reader.reads_right.1 hx
    rw [reads_keyword ht] at hk
    have hle := hs.length_le
    have hlt := hk.length_lt
    obtain ⟨hrest, ts, hd, hts⟩ := h.sound (by omega) hx
    refine ⟨hrest, operands ++ [(ts, x)], ?_, ?_, ?_⟩
    · intro operand hmem
      rcases List.mem_append.1 hmem with hmem | hmem
      · exact ho operand hmem
      · rw [List.mem_singleton.1 hmem]
        exact hd
    · rw [List.foldl_append]
      rfl
    · rw [joined, List.flatMap_append, laidOut_append_iff hrest]
      refine ⟨_, hm, hlaid, ?_⟩
      rw [List.flatMap_cons, List.flatMap_nil, List.append_nil, laidOut_cons_iff hrest]
      exact ⟨k, hk, hts⟩

theorem steps_of_chain (ht : t.keyword? = some word) (h : ReadsExactly lower n r)
    (hsep : ∀ l m, TokenAt t l m → lower.Ends l) (hm : skipBlanks m = m) (he : lower.Ends m)
    {operands : List (List Token × Condition)}
    (ho : ∀ operand ∈ operands, Derives lower operand.1 operand.2) (hl : l.length < n)
    (hb : skipBlanks l = l) (hlaid : LaidOut (joined t operands) l m) :
    Steps ((keyword word).right r) join a l
      (operands.foldl (fun left operand => join left operand.2) a) m ∧ lower.Ends l := by
  induction operands generalizing a l with
  | nil =>
    have hlm := (laidOut_nil_iff hm).1 hlaid
    rw [hb] at hlm
    exact hlm ▸ ⟨.refl, hlm ▸ he⟩
  | cons operand operands ih =>
    rw [joined, List.flatMap_cons, List.cons_append, laidOut_cons_iff hm] at hlaid
    obtain ⟨k, hk, hlaid⟩ := hlaid
    obtain ⟨j, hj, hop, hlaid⟩ := (laidOut_append_iff hm).1 hlaid
    have hlt := hk.length_lt
    have hle := hop.length_le
    obtain ⟨hsteps, hends⟩ := ih (a := join a operand.2)
      (fun o hmem => ho o (List.mem_cons_of_mem operand hmem)) (by omega) hj hlaid
    have hx := h.complete (by omega) (ho operand List.mem_cons_self) hop hj hends
    have hstep := Reader.reads_right.2 ⟨(), k, (reads_keyword ht).2 hk, hx⟩
    exact ⟨Steps.cons hstep hsteps, hsep l k hk⟩

theorem readsExactly_chain {upper : Rank} (ht : t.keyword? = some word)
    (h : ReadsExactly lower n r) (hsep : ∀ l m, TokenAt t l m → lower.Ends l)
    (hjoints : upper.joints = lower.joints ++ [t])
    (hderives : ∀ ts c, Derives upper ts c ↔
      ∃ us d, ∃ operands : List (List Token × Condition), Derives lower us d ∧
        (∀ operand ∈ operands, Derives lower operand.1 operand.2) ∧
          ts = us ++ joined t operands ∧
            c = operands.foldl (fun left operand => join left operand.2) d) :
    ReadsExactly upper n (r.foldl ((keyword word).right r) join) where
  sound := by
    intro l c rest hl hr
    obtain ⟨d, m, hd, hsteps, -⟩ := Reader.reads_foldl.1 hr
    have hlt := hd.length_lt
    obtain ⟨hm, us, hus, hlaid⟩ := h.sound hl hd
    obtain ⟨hrest, operands, ho, hc, hops⟩ := chain_of_steps ht h hsteps (by omega) hm
    refine ⟨hrest, us ++ joined t operands, ?_, ?_⟩
    · rw [hderives]
      exact ⟨us, d, operands, hus, ho, rfl, hc⟩
    · rw [laidOut_append_iff hrest]
      exact ⟨m, hm, hlaid, hops⟩
  complete := by
    intro l c rest ts hl hd hlaid hrest hends
    obtain ⟨us, d, operands, hus, ho, rfl, rfl⟩ := (hderives ts c).1 hd
    obtain ⟨m, hm, hlaid, hops⟩ := (laidOut_append_iff hrest).1 hlaid
    have hle := hlaid.length_le
    have hlower : lower.Ends rest := by
      intro u hu
      apply hends
      rw [hjoints]
      exact List.mem_append_left [t] hu
    have hmn : m.length < n := by omega
    obtain ⟨hsteps, hfirst⟩ := steps_of_chain ht h hsep hrest hlower ho hmn hm hops
    rw [Reader.reads_foldl]
    refine ⟨d, m, h.complete hl hus hlaid hm hfirst, hsteps, ?_⟩
    rw [Reader.eq_none_iff]
    intro x k hx
    obtain ⟨_, j, hj, -⟩ := Reader.reads_right.1 hx
    rw [reads_keyword ht] at hj
    refine hends t ?_ j hj
    rw [hjoints]
    exact List.mem_append_right lower.joints List.mem_cons_self

end Chain

theorem derives_conjunction_iff {ts : List Token} :
    Derives .conjunction ts c ↔
      ∃ us d, ∃ operands : List (List Token × Condition), Derives .negation us d ∧
        (∀ operand ∈ operands, Derives .negation operand.1 operand.2) ∧
          ts = us ++ joined .and operands ∧
            c = operands.foldl (fun left operand => .and left operand.2) d := by
  constructor
  · intro h
    cases h with
    | conjunction h ho => exact ⟨_, _, _, h, ho, rfl, rfl⟩
  · intro h
    obtain ⟨us, d, operands, h, ho, rfl, rfl⟩ := h
    exact .conjunction h ho

theorem derives_disjunction_iff {ts : List Token} :
    Derives .disjunction ts c ↔
      ∃ us d, ∃ operands : List (List Token × Condition), Derives .conjunction us d ∧
        (∀ operand ∈ operands, Derives .conjunction operand.1 operand.2) ∧
          ts = us ++ joined .or operands ∧
            c = operands.foldl (fun left operand => .or left operand.2) d := by
  constructor
  · intro h
    cases h with
    | disjunction h ho => exact ⟨_, _, _, h, ho, rfl, rfl⟩
  · intro h
    obtain ⟨us, d, operands, h, ho, rfl, rfl⟩ := h
    exact .disjunction h ho

theorem readsExactly_disjunction {n : Nat} {r : Reader Condition}
    (h : ReadsExactly .disjunction n r) : ReadsExactly .disjunction (n + 1) (disjunction r) := by
  have hnegation := readsExactly_negation (readsExactly_atom h)
  have hconjunction : ReadsExactly .conjunction (n + 1) (conjunction r) := by
    apply readsExactly_chain (t := .and) rfl hnegation
    · intro l m _ t ht
      cases ht
    · rfl
    · intro ts c
      exact derives_conjunction_iff
  apply readsExactly_chain (t := .or) rfl hconjunction
  · intro l m hor t ht k hand
    cases List.mem_singleton.1 ht
    exact absurd (hor.same_keyword rfl rfl hand) (by decide)
  · rfl
  · intro ts c
    exact derives_disjunction_iff

theorem ReadsExactly.below {rank : Rank} {n : Nat} {r : Reader Condition}
    (h : ReadsExactly rank n r) {m : Nat} (hm : m ≤ n) : ReadsExactly rank m (r.below m) where
  sound hl hr := h.sound (Nat.lt_of_lt_of_le hl hm) (Reader.reads_below.1 hr).2
  complete hl hd ht hs he :=
    Reader.reads_below.2 ⟨hl, h.complete (Nat.lt_of_lt_of_le hl hm) hd ht hs he⟩

theorem readsExactly_condition (n : Nat) : ReadsExactly .disjunction n condition := by
  induction n with
  | zero => exact readsExactly_zero _ _
  | succ n ih =>
    have hstep : ∀ l : List Char, l.length ≤ n →
        ReadsExactly .disjunction (l.length + 1) (disjunction (condition.below l.length)) := by
      intro l hl
      exact readsExactly_disjunction (ih.below hl)
    constructor
    · intro l c rest hl hr
      exact (hstep l (by omega)).sound (Nat.lt_succ_self _) (Reader.reads_recursive.1 hr)
    · intro l c rest ts hl hd ht hs he
      exact Reader.reads_recursive.2
        ((hstep l (by omega)).complete (Nat.lt_succ_self _) hd ht hs he)

theorem ends_nil (rank : Rank) : rank.Ends [] := by
  intro t _ m h
  have := h.length_lt
  simp at this

theorem parse?_eq_some_iff_reads {s : String} :
    parse? s = some c ↔ condition.Reads s.toList c [] := by
  unfold parse? Reader.Reads
  constructor
  · intro h
    split at h
    · next hc =>
      cases h
      exact ⟨_, hc⟩
    · cases h
  · intro h
    obtain ⟨_, h⟩ := h
    rw [h]

theorem parse?_eq_some_iff {s : String} :
    parse? s = some c ↔ ∃ ts, LaidOut ts s.toList [] ∧ Derives .disjunction ts c := by
  have hexact := readsExactly_condition (s.toList.length + 1)
  rw [parse?_eq_some_iff_reads]
  constructor
  · intro h
    obtain ⟨-, ts, hd, ht⟩ := hexact.sound (Nat.lt_succ_self _) h
    exact ⟨ts, ht, hd⟩
  · intro h
    obtain ⟨ts, ht, hd⟩ := h
    exact hexact.complete (Nat.lt_succ_self _) hd ht rfl (ends_nil _)

end StudioMake.Condition
