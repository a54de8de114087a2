import CssStyling.Document.CachedElement
import CssStyling.Matching.Simple
import Mathlib

namespace CssStyling

namespace Ascii

def IsWord (w : List Char) : Prop :=
  w ≠ [] ∧ ∀ c ∈ w, isSpace c = false

theorem splitStep_words {c : Char} {s : List Char × List (List Char)}
    (hw : ∀ x ∈ s.1, isSpace x = false) (hws : ∀ w ∈ s.2, IsWord w) :
    (∀ x ∈ (splitStep c s).1, isSpace x = false) ∧ ∀ w ∈ (splitStep c s).2, IsWord w := by
  obtain ⟨w, ws⟩ := s
  cases hc : isSpace c with
  | true =>
      cases w with
      | nil => simpa [splitStep, hc] using hws
      | cons x w =>
          simp only [splitStep, hc, ↓reduceIte]
          exact ⟨nofun, List.forall_mem_cons.mpr ⟨⟨List.cons_ne_nil x w, hw⟩, hws⟩⟩
  | false =>
      cases w with
      | nil => simpa [splitStep, hc] using hws
      | cons x w =>
          simp only [splitStep, hc, Bool.false_eq_true, ↓reduceIte]
          exact ⟨List.forall_mem_cons.mpr ⟨hc, hw⟩, hws⟩

theorem foldr_splitStep_words (cs : List Char) :
    (∀ x ∈ (cs.foldr splitStep ([], [])).1, isSpace x = false) ∧
      ∀ w ∈ (cs.foldr splitStep ([], [])).2, IsWord w := by
  induction cs with
  | nil => exact ⟨nofun, nofun⟩
  | cons c cs ih => exact splitStep_words ih.1 ih.2

theorem isWord_of_mem_wordChars {cs w : List Char} (h : w ∈ wordChars cs) : IsWord w := by
  obtain ⟨first, others⟩ := foldr_splitStep_words cs
  unfold wordChars at h
  split at h
  · rename_i hs
    rw [hs] at others
    exact others w h
  · rename_i hne hs
    rw [hs] at first others
    rcases List.mem_cons.mp h with rfl | h
    · exact ⟨hne, first⟩
    · exact others w h

theorem isWord_of_mem_words {s w : String} (h : w ∈ words s) : IsWord w.toList := by
  obtain ⟨cs, hcs, rfl⟩ := List.mem_map.mp h
  rw [String.toList_ofList]
  exact isWord_of_mem_wordChars hcs

end Ascii

theorem AttributeOperator.includes_iff {actual expected : String} :
    AttributeOperator.includes.holds actual expected = true ↔ expected ∈ Ascii.words actual := by
  simp only [holds, Bool.and_eq_true, List.contains_iff_mem]
  refine ⟨And.right, fun h => ⟨?_, h⟩⟩
  obtain ⟨filled, unspaced⟩ := Ascii.isWord_of_mem_words h
  simpa [filled] using unspaced

namespace CachedElement

variable {e : CachedElement} {edits : List AttributeEdit}

structure Fresh (e : CachedElement) : Prop where
  id : e.cachedId = e.id?
  classes : e.cachedClasses = e.classes

theorem refresh_fresh (e : Element) : (refresh e).Fresh :=
  ⟨rfl, rfl⟩

theorem edit_fresh (h : e.Fresh) (x : AttributeEdit) : (e.edit x).Fresh := by
  cases x with
  | set a => exact refresh_fresh _
  | remove space name =>
      rw [edit, removeAttribute]
      split
      · exact h
      · exact refresh_fresh _

theorem toElement_edit (e : CachedElement) (x : AttributeEdit) :
    (e.edit x).toElement = e.toElement.edit x := by
  cases x with
  | set a => rfl
  | remove space name =>
      rw [edit, Element.edit, removeAttribute, Element.removeAttribute]
      cases hf : e.attributes.find? (Attribute.isNamed space name) with
      | none => rw [List.eraseP_of_forall_not (List.find?_eq_none.mp hf)]
      | some a => rfl

theorem foldl_edit_fresh (h : e.Fresh) (edits : List AttributeEdit) :
    (edits.foldl edit e).Fresh := by
  induction edits generalizing e with
  | nil => exact h
  | cons x edits ih => exact ih (edit_fresh h x)

theorem toElement_foldl_edit (e : CachedElement) (edits : List AttributeEdit) :
    (edits.foldl edit e).toElement = edits.foldl Element.edit e.toElement := by
  induction edits generalizing e with
  | nil => rfl
  | cons x edits ih => rw [List.foldl_cons, ih, toElement_edit, List.foldl_cons]

end CachedElement

namespace Matching

variable {c : MatchingContext} {d : Document} {id : NodeId} {e : CachedElement}

def cachedSimple (c : MatchingContext) (d : Document) (id : NodeId) (e : CachedElement) :
    Simple → Bool
  | .identifier name => e.cachedId.any (c.mode.nameCase.same · name)
  | .className name => e.cachedClasses.any (c.mode.nameCase.same · name)
  | s => simple c d id e.toElement s

theorem cachedSimple_eq (h : e.Fresh) (s : Simple) :
    cachedSimple c d id e s = simple c d id e.toElement s := by
  cases s with
  | identifier name => rw [cachedSimple, simple, h.id]
  | className name => rw [cachedSimple, simple, h.classes]
  | _ => rfl

theorem attributeValues_unnamed {e : Element} {p : NamespacePattern}
    (hp : p = .omitted ∨ p = .none) (name : String) :
    attributeValues c p name e = (e.attribute? none name).toList := by
  rcases hp with rfl | rfl <;> rfl

theorem nameCase_of_ne_quirks (hc : c.mode ≠ .quirks) : c.mode.nameCase = .sensitive := by
  cases hm : c.mode with
  | quirks => exact absurd hm hc
  | noQuirks => rfl
  | limitedQuirks => rfl

theorem className_iff {e : Element} (hc : c.mode ≠ .quirks) {p : NamespacePattern}
    (hp : p = .omitted ∨ p = .none) (x : String) :
    simple c d id e (.className x) = true ↔
      simple c d id e (.attributeTest p "class" (some (.includes, x))) = true := by
  simp only [simple, nameCase_of_ne_quirks hc, attributeValues_unnamed hp, Element.classes]
  cases e.attribute? none "class" with
  | none => simp
  | some value => simp [LetterCase.same, attributeTest, AttributeOperator.includes_iff]

theorem identifier_iff {e : Element} (hc : c.mode ≠ .quirks) {p : NamespacePattern}
    (hp : p = .omitted ∨ p = .none) (x : String) :
    simple c d id e (.identifier x) = true ↔
      simple c d id e (.attributeTest p "id" (some (.equals, x))) = true := by
  simp only [simple, nameCase_of_ne_quirks hc, attributeValues_unnamed hp, Element.id?]
  cases e.attribute? none "id" with
  | none => simp
  | some value => simp [LetterCase.same, attributeTest, AttributeOperator.holds]

theorem cached_names (localName : String) (space : Option String) (attributes : List Attribute)
    (edits : List AttributeEdit) (hc : c.mode ≠ .quirks) {p : NamespacePattern}
    (hp : p = .omitted ∨ p = .none) (d : Document) (id : NodeId) (x : String) :
    let e := edits.foldl CachedElement.edit (.make localName space attributes)
    (cachedSimple c d id e (.className x) = true ↔
      cachedSimple c d id e (.attributeTest p "class" (some (.includes, x))) = true) ∧
    (cachedSimple c d id e (.identifier x) = true ↔
      cachedSimple c d id e (.attributeTest p "id" (some (.equals, x))) = true) ∧
    ∀ s, cachedSimple c d id e s =
      simple c d id (edits.foldl Element.edit (.make localName space attributes)) s := by
  intro e
  have fresh : e.Fresh := CachedElement.foldl_edit_fresh (CachedElement.refresh_fresh _) edits
  have same (s : Simple) : cachedSimple c d id e s =
      simple c d id (edits.foldl Element.edit (.make localName space attributes)) s := by
    rw [cachedSimple_eq fresh, CachedElement.toElement_foldl_edit]
    rfl
  refine ⟨?_, ?_, same⟩
  · rw [same, same]
    exact className_iff hc hp x
  · rw [same, same]
    exact identifier_iff hc hp x

def classed : List Attribute :=
  [⟨some Namespace.xlink, "class", "far"⟩, ⟨none, "class", "near"⟩, ⟨none, "class", " big\tred "⟩]

theorem cached_names_removed :
    let e := [AttributeEdit.remove none "class"].foldl CachedElement.edit (.make "g" none classed)
    MatchingContext.standard.mode ≠ .quirks ∧
      cachedSimple .standard .empty ⟨0, 0⟩ e (.className "red") = true ∧
      cachedSimple .standard .empty ⟨0, 0⟩ e
        (.attributeTest .omitted "class" (some (.includes, "red"))) = true ∧
      cachedSimple .standard .empty ⟨0, 0⟩ e (.className "near") = false := by
  intro e
  have strict : MatchingContext.standard.mode ≠ .quirks := nofun
  have holds : cachedSimple .standard .empty ⟨0, 0⟩ e (.className "red") = true := by cbv
  have names := cached_names "g" none classed [.remove none "class"] strict (.inl rfl) .empty
    ⟨0, 0⟩ "red"
  exact ⟨strict, holds, names.1.mp holds, by cbv⟩

end Matching

end CssStyling
