import CssStyling.Document.Edit
import CssStyling.Matching
import Mathlib

namespace CssStyling

namespace MatchingContext

variable {c c' : MatchingContext}

structure Widens (c c' : MatchingContext) : Prop where
  scope : c'.scope = c.scope
  defaultNamespace : c'.defaultNamespace = c.defaultNamespace
  host : c'.host = c.host
  mode : c'.mode = c.mode ∨ c'.mode = .quirks
  labels {label url : String} : c.namespace? label = some url → c'.namespace? label = some url

structure Admits (c c' : MatchingContext) : Prop where
  scope : c'.scope = c.scope
  defaultNamespace : c'.defaultNamespace = c.defaultNamespace
  host : c'.host = c.host
  names {s t : String} : c.mode.nameCase.same s t = true → c'.mode.nameCase.same s t = true
  labels {label url : String} : c.namespace? label = some url → c'.namespace? label = some url

theorem same_quirks {mode : CompatibilityMode} {s t : String}
    (h : mode.nameCase.same s t = true) : CompatibilityMode.quirks.nameCase.same s t = true := by
  cases mode with
  | quirks => exact h
  | noQuirks =>
      obtain rfl : s = t := eq_of_beq h
      exact beq_self_eq_true _
  | limitedQuirks =>
      obtain rfl : s = t := eq_of_beq h
      exact beq_self_eq_true _

theorem Widens.admits (h : c.Widens c') : c.Admits c' where
  scope := h.scope
  defaultNamespace := h.defaultNamespace
  host := h.host
  names hst := by
    rcases h.mode with hm | hm
    · rwa [hm]
    · rw [hm]
      exact same_quirks hst
  labels := h.labels

theorem Admits.of_nameCase {m m' : CompatibilityMode} (h : m.nameCase = m'.nameCase) :
    Admits { c with mode := m } { c with mode := m' } where
  scope := rfl
  defaultNamespace := rfl
  host := rfl
  names hst := h ▸ hst
  labels h := h

end MatchingContext

namespace Document

variable {d : Document} {p p' : NodeId → Bool}

theorem anyAncestorWithin_mono (h : ∀ x, p x = true → p' x = true) {n : Nat} {id : NodeId}
    (ha : d.anyAncestorWithin p n id = true) : d.anyAncestorWithin p' n id = true := by
  induction n generalizing id with
  | zero => exact ha
  | succ n ih =>
      rw [anyAncestorWithin] at ha ⊢
      cases hp : d.parentElement? id with
      | none => rwa [hp] at ha
      | some parent =>
          simp only [hp, Bool.or_eq_true] at ha ⊢
          exact ha.imp (h parent) ih

theorem anyRelated_mono (h : ∀ x, p x = true → p' x = true) {id : NodeId} {k : Combinator}
    (ha : d.anyRelated p id k = true) : d.anyRelated p' id k = true := by
  cases k with
  | child =>
      rw [anyRelated, Option.any_eq_true] at ha ⊢
      exact ha.imp fun x => And.imp_right (h x)
  | descendant => exact anyAncestorWithin_mono h ha
  | nextSibling =>
      rw [anyRelated, Option.any_eq_true] at ha ⊢
      exact ha.imp fun x => And.imp_right (h x)
  | subsequentSibling =>
      rw [anyRelated, List.any_eq_true] at ha ⊢
      exact ha.imp fun x => And.imp_right (h x)
  | column => exact ha
  | none => exact ha

end Document

namespace Matching

open MatchingContext

variable {c c' : MatchingContext} {d : Document} {id : NodeId} {e : Element}

theorem elementNamespace_mono (h : c.Admits c') {pattern : NamespacePattern}
    (hp : elementNamespace c pattern e = true) : elementNamespace c' pattern e = true := by
  cases pattern with
  | any => rfl
  | none => exact hp
  | omitted =>
      rw [elementNamespace] at hp ⊢
      rwa [h.defaultNamespace]
  | labelled label =>
      rw [elementNamespace] at hp ⊢
      cases hl : c.namespace? label with
      | none => simp [hl] at hp
      | some url =>
          rw [hl] at hp
          rwa [h.labels hl]

theorem mem_attributeValues_mono (h : c.Admits c') {pattern : NamespacePattern} {name v : String}
    (hv : v ∈ attributeValues c pattern name e) : v ∈ attributeValues c' pattern name e := by
  cases pattern with
  | any =>
      rw [attributeValues] at hv ⊢
      rwa [h.host]
  | none => exact hv
  | omitted => exact hv
  | labelled label =>
      rw [attributeValues] at hv ⊢
      cases hl : c.namespace? label with
      | none => simp [hl] at hv
      | some url =>
          rw [hl] at hv
          rwa [h.labels hl]

theorem pseudoClass_congr (hs : c'.scope = c.scope) (hh : c'.host = c.host) {name : String}
    {arguments : Option (List Token)} :
    pseudoClass c' d id e name arguments = pseudoClass c d id e name arguments := by
  have scope : isScope c' d id = isScope c d id := by
    simp only [isScope, scopeElement?, hs]
  simp only [pseudoClass, scope, hh]

theorem simple_mono (h : c.Admits c') {s : Simple} (hs : simple c d id e s = true) :
    simple c' d id e s = true := by
  cases s with
  | «universal» pattern => exact elementNamespace_mono h hs
  | type pattern localName =>
      rw [simple, Bool.and_eq_true] at hs ⊢
      exact hs.imp_right (elementNamespace_mono h)
  | identifier name =>
      rw [simple, Option.any_eq_true] at hs ⊢
      exact hs.imp fun _ => And.imp_right h.names
  | className name =>
      rw [simple, List.any_eq_true] at hs ⊢
      exact hs.imp fun _ => And.imp_right h.names
  | attributeTest pattern name test =>
      rw [simple, List.any_eq_true] at hs ⊢
      exact hs.imp fun _ => And.imp_left (mem_attributeValues_mono h)
  | pseudoClass name arguments =>
      rw [simple] at hs ⊢
      rwa [pseudoClass_congr h.scope h.host]
  | pseudoElement name arguments => rfl

theorem compound_mono (h : c.Admits c') {s : Compound} (hs : compound c d id s = true) :
    compound c' d id s = true := by
  rw [compound] at hs ⊢
  cases he : d.element? id with
  | none => simp [he] at hs
  | some e =>
      simp only [he, List.all_eq_true] at hs ⊢
      exact fun s hmem => simple_mono h (hs s hmem)

theorem leftward_mono (h : c.Admits c') {steps : List Step}
    (hs : leftward c d steps id = true) : leftward c' d steps id = true := by
  induction steps generalizing id with
  | nil => rfl
  | cons step steps ih =>
      rw [leftward] at hs ⊢
      refine Document.anyRelated_mono (fun x hx => ?_) hs
      rw [Bool.and_eq_true] at hx ⊢
      exact hx.imp (compound_mono h) ih

theorem complex_mono (h : c.Admits c') {s : Complex} (hs : complex c d s id = true) :
    complex c' d s id = true := by
  rw [complex, Bool.and_eq_true] at hs ⊢
  exact hs.imp (compound_mono h) (leftward_mono h)

theorem selectorList_mono (h : c.Admits c') {l : SelectorList}
    (hl : selectorList c d l id = true) : selectorList c' d l id = true := by
  rw [selectorList, List.any_eq_true] at hl ⊢
  exact hl.imp fun _ => And.imp_right (complex_mono h)

theorem complex_eq_of_nameCase {m m' : CompatibilityMode} (h : m.nameCase = m'.nameCase)
    (s : Complex) : complex { c with mode := m } d s id = complex { c with mode := m' } d s id :=
  Bool.eq_iff_iff.mpr ⟨complex_mono (.of_nameCase h), complex_mono (.of_nameCase h.symm)⟩

theorem widens_matches (h : c.Widens c') (d : Document) (id : NodeId) (s : Complex)
    (l : SelectorList) :
    (complex c d s id = true → complex c' d s id = true) ∧
      (selectorList c d l id = true → selectorList c' d l id = true) ∧
      complex { c with mode := .limitedQuirks } d s id =
        complex { c with mode := .noQuirks } d s id ∧
      selectorList { c with mode := .limitedQuirks } d l id =
        selectorList { c with mode := .noQuirks } d l id := by
  have names : CompatibilityMode.limitedQuirks.nameCase = CompatibilityMode.noQuirks.nameCase := rfl
  have same (s : Complex) : complex { c with mode := .limitedQuirks } d s id =
      complex { c with mode := .noQuirks } d s id := complex_eq_of_nameCase names s
  refine ⟨complex_mono h.admits, selectorList_mono h.admits, same s, ?_⟩
  simp only [selectorList, same]

def icons : Document :=
  let (list, d) := Document.empty.create (.element ⟨none, "ul", []⟩)
  let (icon, d) := d.create (.element ⟨some Namespace.svg, "svg", [⟨none, "class", "Big red"⟩]⟩)
  (d.append list icon).2

def labels : MatchingContext :=
  { MatchingContext.standard with namespaces := [("s", Namespace.svg)] }

def moreLabels : MatchingContext :=
  { labels with namespaces := [("m", Namespace.mathMl), ("s", Namespace.svg)], mode := .quirks }

/-- `ul > s|svg.Big` -/
def bigIcon : Complex where
  ancestors := [⟨⟨[.type .omitted "ul"]⟩, .child⟩]
  subject := ⟨[.type (.labelled "s") "svg", .className "Big"]⟩
  specificity := ⟨0, 1, 2⟩

theorem labels_widens : labels.Widens moreLabels where
  scope := rfl
  defaultNamespace := rfl
  host := rfl
  mode := .inr rfl
  labels {label url} h := by
    by_cases hl : label = "s"
    · subst hl
      exact h
    · simp [labels, MatchingContext.namespace?, hl] at h

theorem widens_matches_icon : labels.Widens moreLabels ∧
    complex labels icons bigIcon ⟨1, 0⟩ = true ∧ complex moreLabels icons bigIcon ⟨1, 0⟩ = true ∧
    selectorList moreLabels icons ⟨[bigIcon]⟩ ⟨1, 0⟩ = true := by
  have holds : complex labels icons bigIcon ⟨1, 0⟩ = true := by cbv
  have listed : selectorList labels icons ⟨[bigIcon]⟩ ⟨1, 0⟩ = true := by
    rw [selectorList, List.any_cons, holds]
    rfl
  have wider := widens_matches labels_widens icons ⟨1, 0⟩ bigIcon ⟨[bigIcon]⟩
  exact ⟨labels_widens, holds, wider.1 holds, wider.2.1 listed⟩

end Matching

end CssStyling
