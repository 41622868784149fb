import StudioMake.SheetFile

/-!
# The names in a document

Every element of a document that has been read bears an XML name: it starts with a letter or an
underscore, and none of its characters is a blank, a dollar sign or a bracket.
-/

set_option autoImplicit false

namespace StudioMake

theorem Text.subset_of_mem_pieces {p : Char → Bool} {l piece : List Char}
    (h : piece ∈ Text.pieces p l) : piece ⊆ l := by
  induction l generalizing piece with
  | nil =>
    simp only [Text.pieces, List.mem_singleton] at h
    simp [h]
  | cons x rest ih =>
    cases hx : p x with
    | true =>
      simp only [Text.pieces, hx, if_true, List.mem_cons] at h
      rcases h with rfl | h
      · simp
      · exact List.subset_cons_of_subset x (ih h)
    | false =>
      obtain ⟨first, more, h₁, h₂⟩ := Text.pieces_cons_of_not hx rest
      rw [h₂, List.mem_cons] at h
      rcases h with rfl | h
      · exact List.cons_subset_cons x (ih (by rw [h₁]; exact List.mem_cons_self))
      · exact List.subset_cons_of_subset x (ih (by rw [h₁]; exact List.mem_cons_of_mem _ h))

namespace Xml

def isName (name : String) : Bool := startsName name.toList && name.toList.all isNameChar

/-- Every element of a tree bears a name. -/
inductive Element.Named : Element → Prop
  | intro {e : Element} (name : isName e.name = true) (children : ∀ c ∈ e.children, Named c) :
      Named e

namespace Element.Named

variable {e : Element}

theorem isName (h : e.Named) : isName e.name = true := by
  cases h with
  | intro name _ => exact name

theorem child (h : e.Named) : ∀ c ∈ e.children, c.Named := by
  cases h with
  | intro _ children => exact children

end Element.Named

theorem isName_of_mem_pieces {name piece : List Char} (hn : ∀ c ∈ name, isQNameChar c = true)
    (hp : piece ∈ Text.pieces (· == ':') name) (hs : startsName piece = true) :
    isName (String.ofList piece) = true := by
  rw [isName, String.toList_ofList, hs, Bool.true_and, List.all_eq_true]
  intro c hc
  have hq := hn c (Text.subset_of_mem_pieces hp hc)
  have hcolon : (c == ':') = false := Text.not_of_mem_pieces hp c hc
  rwa [isQNameChar, hcolon, Bool.false_or] at hq

theorem isName_of_ofChars? {name : List Char} {q : QName}
    (hn : ∀ c ∈ name, isQNameChar c = true) (h : QName.ofChars? name = some q) :
    isName q.name = true := by
  unfold QName.ofChars? at h
  split at h
  · next only hp =>
    split at h
    · next hs =>
      cases h
      exact isName_of_mem_pieces hn (by simp [hp]) hs
    · cases h
  · next qualifier only hp =>
    split at h
    · next hs =>
      cases h
      exact isName_of_mem_pieces hn (by simp [hp]) (Bool.and_eq_true_iff.1 hs).2
    · cases h
  · cases h

theorem isName_of_qname? {l rest : List Char} {q : QName} (h : qname? l = some (q, rest)) :
    isName q.name = true := by
  obtain ⟨q', hq, he⟩ := Option.map_eq_some_iff.1 h
  cases he
  refine isName_of_ofChars? ?_ hq
  intro c hc
  exact List.all_eq_true.1 (List.all_takeWhile (p := isQNameChar)) c hc

def Markup.Named : Markup → Prop
  | .opening name _ _ => isName name.name = true
  | _ => True

theorem named_of_tag? {l rest : List Char} {m : Markup} (h : tag? l = some (m, rest)) :
    m.Named := by
  unfold tag? at h
  split at h
  · obtain ⟨⟨_, _⟩, -, h⟩ := Option.bind_eq_some_iff.1 h
    obtain ⟨_, -, h⟩ := Option.bind_eq_some_iff.1 h
    cases h
    trivial
  · unfold instruction? at h
    split at h
    · cases h
    · split at h
      · obtain ⟨⟨_, _⟩, -, h⟩ := Option.bind_eq_some_iff.1 h
        cases h
        trivial
      · cases h
  · unfold declaration? at h
    split at h
    · obtain ⟨⟨_, _⟩, -, h⟩ := Option.bind_eq_some_iff.1 h
      dsimp only at h
      split at h <;> cases h
      trivial
    · obtain ⟨⟨_, _⟩, -, h⟩ := Option.bind_eq_some_iff.1 h
      cases h
      trivial
    · cases h
  · obtain ⟨⟨_, _⟩, hq, h⟩ := Option.bind_eq_some_iff.1 h
    obtain ⟨⟨⟨_, _⟩, _⟩, -, h⟩ := Option.bind_eq_some_iff.1 h
    cases h
    exact isName_of_qname? hq

theorem named_of_next? {l rest : List Char} {m : Markup} (h : Markup.next? l = some (m, rest)) :
    m.Named := by
  unfold Markup.next? at h
  split at h
  · exact named_of_tag? h
  · unfold text? at h
    dsimp only at h
    split at h
    · cases h
    · cases h
      trivial

theorem named_of_all? {l : List Char} {markup : List Markup} (h : Markup.all? l = some markup) :
    ∀ m ∈ markup, m.Named := by
  fun_induction Markup.all? l generalizing markup with
  | case1 =>
    cases h
    simp
  | case2 => cases h
  | case3 c l m rest hn ih =>
    obtain ⟨more, hm, rfl⟩ := Option.map_eq_some_iff.1 h
    intro m' hm'
    rcases List.mem_cons.1 hm' with rfl | hm'
    · exact named_of_next? hn
    · exact ih hm m' hm'

structure Frame.Named (f : Frame) : Prop where
  name : isName f.name.name = true
  children : ∀ c ∈ f.children, c.Named

theorem Frame.Named.element {f : Frame} (h : f.Named) : f.element.Named :=
  .intro h.name h.children

theorem Frame.Named.addChild {f : Frame} {child : Element} (h : f.Named) (hc : child.Named) :
    (f.addChild child).Named := by
  refine ⟨h.name, ?_⟩
  intro c hm
  rcases List.mem_append.1 hm with hm | hm
  · exact h.children c hm
  · rw [List.mem_singleton.1 hm]
    exact hc

theorem Frame.Named.addText {f : Frame} (h : f.Named) (content : List Char) :
    (f.addText content).Named := by
  unfold Frame.addText
  split
  · exact ⟨h.name, h.children⟩
  · exact h

theorem named_of_open? {outer : List (String × String)} {name : QName}
    {attributes : List (QName × String)} {f : Frame} (hn : isName name.name = true)
    (h : Frame.open? outer name attributes = some f) : f.Named := by
  obtain ⟨declared, -, h⟩ := Option.bind_eq_some_iff.1 h
  obtain ⟨expanded, -, h⟩ := Option.bind_eq_some_iff.1 h
  split at h
  · cases h
  · split at h
    · cases h
      exact ⟨hn, by simp⟩
    · cases h

structure Building.Named (b : Building) : Prop where
  stack : ∀ f ∈ b.stack, f.Named
  root : ∀ e ∈ b.root, e.Named

theorem Building.named_close {stack : List Frame} {child : Element} {root : Option Element}
    (hs : ∀ f ∈ stack, f.Named) (hr : ∀ e ∈ root, e.Named) (hc : child.Named) :
    (Building.close stack child root).Named := by
  unfold Building.close
  split
  · exact ⟨by simp, by simpa using hc⟩
  · next frame outer =>
    refine ⟨?_, hr⟩
    intro f hf
    rcases List.mem_cons.1 hf with rfl | hf
    · exact (hs frame List.mem_cons_self).addChild hc
    · exact hs f (List.mem_cons_of_mem _ hf)

theorem Building.Named.setTop {b : Building} {frame top : Frame} {outer : List Frame}
    (h : b.Named) (hs : b.stack = frame :: outer) (ht : top.Named) :
    Building.Named { b with stack := top :: outer } := by
  refine ⟨?_, h.root⟩
  intro f hf
  rcases List.mem_cons.1 hf with rfl | hf
  · exact ht
  · exact h.stack f (hs ▸ List.mem_cons_of_mem _ hf)

theorem Building.Named.addOpening {b b' : Building} {name : QName}
    {attributes : List (QName × String)} {closed : Bool} (h : b.Named)
    (hn : isName name.name = true) (hb : b.add? (.opening name attributes closed) = some b') :
    b'.Named := by
  rw [Building.add?] at hb
  split at hb
  · cases hb
  · obtain ⟨frame, hf, hb⟩ := Option.bind_eq_some_iff.1 hb
    have hframe := named_of_open? hn hf
    split at hb
    · cases hb
      exact Building.named_close h.stack h.root hframe.element
    · cases hb
      refine ⟨?_, h.root⟩
      intro f hm
      rcases List.mem_cons.1 hm with rfl | hm
      · exact hframe
      · exact h.stack f hm

theorem Building.Named.add {b b' : Building} {m : Markup} (h : b.Named) (hm : m.Named)
    (hb : b.add? m = some b') : b'.Named := by
  cases m with
  | opening name attributes closed => exact h.addOpening hm hb
  | closing name =>
    rw [Building.add?] at hb
    split at hb
    · next frame outer hs =>
      split at hb
      · cases hb
        have hstack := h.stack
        rw [hs] at hstack
        exact Building.named_close (fun f hf => hstack f (List.mem_cons_of_mem _ hf)) h.root
          (hstack frame List.mem_cons_self).element
      · cases hb
    · cases hb
  | text content =>
    rw [Building.add?] at hb
    split at hb
    · next frame outer hs =>
      obtain ⟨data, -, hb⟩ := Option.bind_eq_some_iff.1 hb
      cases hb
      exact h.setTop hs ((h.stack frame (by simp [hs])).addText data)
    · split at hb
      · cases hb
        exact h
      · cases hb
  | data content =>
    rw [Building.add?] at hb
    split at hb
    · next frame outer hs =>
      cases hb
      exact h.setTop hs ((h.stack frame (by simp [hs])).addText _)
    · cases hb
  | aside =>
    rw [Building.add?] at hb
    split at hb
    · next frame outer hs =>
      cases hb
      have hf := h.stack frame (by simp [hs])
      exact h.setTop hs ⟨hf.name, hf.children⟩
    · cases hb
      exact h

theorem Building.Named.addAll {b b' : Building} {markup : List Markup} (h : b.Named)
    (hm : ∀ m ∈ markup, m.Named) (hb : markup.foldlM Building.add? b = some b') : b'.Named := by
  induction markup generalizing b with
  | nil =>
    cases hb
    exact h
  | cons m markup ih =>
    rw [List.foldlM_cons] at hb
    obtain ⟨b₁, h₁, hb⟩ := Option.bind_eq_some_iff.1 hb
    exact ih (h.add (hm m List.mem_cons_self) h₁)
      (fun m' hm' => hm m' (List.mem_cons_of_mem m hm')) hb

/-- The elements of a document that can be read bear names. -/
theorem Element.named_of_ofDocument? {document : String} {root : Element}
    (h : Element.ofDocument? document = some root) : root.Named := by
  unfold Element.ofDocument? at h
  simp only at h
  split at h
  · obtain ⟨l, -, h⟩ := Option.bind_eq_some_iff.1 h
    obtain ⟨markup, hm, h⟩ := Option.bind_eq_some_iff.1 h
    obtain ⟨b, hb, h⟩ := Option.bind_eq_some_iff.1 h
    split at h
    · have hstart : Building.Named {} := ⟨by simp, by simp⟩
      exact (hstart.addAll (named_of_all? hm) hb).root root h
    · cases h
  · cases h

end Xml

theorem FileSystem.named_of_documentAt? {fs : FileSystem} {path : NormalPath}
    {root : Xml.Element} (h : fs.documentAt? path = some root) : root.Named := by
  obtain ⟨text, -, h⟩ := Option.bind_eq_some_iff.1 h
  exact Xml.Element.named_of_ofDocument? h

end StudioMake
