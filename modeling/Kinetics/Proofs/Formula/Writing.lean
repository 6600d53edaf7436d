import Kinetics.Formula.Reader
import Kinetics.Proofs.Markup.Attribute
import Kinetics.Proofs.Markup.Nesting
import Mathlib.Data.List.DropRight

/-!
# Kinetics.Proofs.Formula.Writing

How formulas are written as markup events. A tree has many writings: a row is either of two elements,
text comes in pieces, blanks stand between elements, an empty element may be one tag, and what is
inside an unknown element is only nested. The trees that have one are those whose leaves hold trimmed
texts and whose unknown elements are none of the known ones.
-/

namespace Kinetics

namespace Formula

open Markup

/-- An element with a tag and attributes around its content, as one tag if it is empty. -/
inductive Element (tag : String) (as : List (String × String)) : List Event → List Event → Prop where
  | around {name name' attributes : List Char} {content : List Event} :
      localName name = tag → localName name' = tag → attributes? attributes = some as →
      Element tag as content (.opening name attributes :: (content ++ [.closing name']))
  | single {name attributes : List Char} :
      localName name = tag → attributes? attributes = some as →
      Element tag as [] [.single name attributes]

/-- The node that a known element is, from its tag, attributes, children and text. -/
inductive Denotes : String → List (String × String) → List Node → List Char → Node → Prop where
  | identifier {as text} : Denotes "mi" as [] text (.identifier (String.ofList (Text.trim text)))
  | number {as text} : Denotes "mn" as [] text (.number (String.ofList (Text.trim text)))
  | operator {as text} : Denotes "mo" as [] text (.operator (String.ofList (Text.trim text)))
  | text {as text} : Denotes "mtext" as [] text (.text (String.ofList (Text.trim text)))
  | math {as children text} : Text.allBlank text = true →
      Denotes "math" as children text (.row children)
  | row {as children text} : Text.allBlank text = true →
      Denotes "mrow" as children text (.row children)
  | fenced {as children text} : Text.allBlank text = true →
      Denotes "mfenced" as children text
        (.fenced ((as.lookup "open").getD "(") ((as.lookup "close").getD ")") children)
  | fraction {as a b text} : Text.allBlank text = true →
      Denotes "mfrac" as [a, b] text (.fraction a b)
  | sub {as a b text} : Text.allBlank text = true → Denotes "msub" as [a, b] text (.sub a b)
  | sup {as a b text} : Text.allBlank text = true → Denotes "msup" as [a, b] text (.sup a b)
  | root {as children text} : Text.allBlank text = true →
      Denotes "msqrt" as children text (.root children)
  /-- what stands in a space is lost -/
  | space {as children text} : Text.allBlank text = true →
      Denotes "mspace" as children text (.space ((as.lookup "width").getD ""))

mutual

/-- The events of an element are a writing of a tree. -/
inductive Writes : Node → List Event → Prop where
  | known {tag as children text node content es} :
      Denotes tag as children text node → Holds children text content →
      Element tag as content es → Writes node es
  | unknown {tag as content es} :
      OpenElement.isKnown tag = false → Closed content → Element tag as content es →
      Writes (.unknown tag) es

/-- Events are writings of trees in order, with pieces of a text between them. -/
inductive Holds : List Node → List Char → List Event → Prop where
  | nil : Holds [] [] []
  | piece {e cs nodes text es} :
      Event.characters? e = some cs → Holds nodes text es → Holds nodes (cs ++ text) (e :: es)
  | node {node fs nodes text es} :
      Writes node fs → Holds nodes text es → Holds (node :: nodes) text (fs ++ es)

end

section Closing

theorem Element.closed {tag : String} {as : List (String × String)} {content es : List Event}
    (h : Element tag as content es) (hc : Closed content) : Closed es := by
  cases h with
  | around => exact .element trivial hc .nil
  | single => exact .single .nil

mutual

theorem Writes.closed {node : Node} {es : List Event} : Writes node es → Closed es
  | .known _ hc he => he.closed hc.closed
  | .unknown _ hc he => he.closed hc

/-- In a writing every element is closed. -/
theorem Holds.closed {nodes : List Node} {text : List Char} {es : List Event} :
    Holds nodes text es → Closed es
  | .nil => .nil
  | .piece hc h => .piece hc h.closed
  | .node hw h => hw.closed.append h.closed

end

end Closing

section Closed

/-- A known element is closed as what it denotes, and as nothing else. -/
theorem denotes_iff {tag : String} {as : List (String × String)} {children : List Node}
    {text : List Char} {node : Node} : Denotes tag as children text node ↔
      OpenElement.isKnown tag = true ∧ OpenElement.close ⟨tag, as, children, text⟩ = .ok node := by
  constructor
  · intro h
    cases h with
    | identifier | number | operator | text => exact ⟨rfl, rfl⟩
    | math ht | row ht | fenced ht | fraction ht | sub ht | sup ht | root ht | space ht =>
      refine ⟨rfl, ?_⟩
      simp only [OpenElement.close, OpenElement.leaf?, ht]
      rfl
  · rintro ⟨hknown, h⟩
    have hblank (hleaf : OpenElement.leaf? tag = none) : Text.allBlank text = true ∧
        OpenElement.container ⟨tag, as, children, text⟩ = .ok node := by
      simp only [OpenElement.close, hleaf] at h
      split at h
      · exact ⟨‹_›, h⟩
      · cases h
    have hleaf {build : String → Node} (hleaf : OpenElement.leaf? tag = some build) :
        children = [] ∧ build (String.ofList (Text.trim text)) = node := by
      simp only [OpenElement.close, hleaf] at h
      split at h
      · exact ⟨List.isEmpty_iff.1 ‹_›, Except.ok.inj h⟩
      · cases h
    have hpair {build : Node → Node → Node}
        (hc : OpenElement.pair ⟨tag, as, children, text⟩ build = .ok node) :
        ∃ a b, children = [a, b] ∧ build a b = node := by
      unfold OpenElement.pair at hc
      split at hc
      · exact ⟨_, _, ‹_›, Except.ok.inj hc⟩
      · cases hc
    have hmem := List.contains_iff_mem.1 hknown
    simp only [OpenElement.knownTags, List.mem_cons, List.not_mem_nil, or_false] at hmem
    rcases hmem with
      rfl | rfl | rfl | rfl | rfl | rfl | rfl | rfl | rfl | rfl | rfl | rfl
    · obtain ⟨ht, hc⟩ := hblank rfl
      cases hc
      exact .math ht
    · obtain ⟨ht, hc⟩ := hblank rfl
      cases hc
      exact .row ht
    · obtain ⟨ht, hc⟩ := hblank rfl
      cases hc
      exact .fenced ht
    · obtain ⟨ht, hc⟩ := hblank rfl
      obtain ⟨a, b, rfl, rfl⟩ := hpair hc
      exact .fraction ht
    · obtain ⟨rfl, rfl⟩ := hleaf rfl
      exact .identifier
    · obtain ⟨rfl, rfl⟩ := hleaf rfl
      exact .number
    · obtain ⟨rfl, rfl⟩ := hleaf rfl
      exact .operator
    · obtain ⟨ht, hc⟩ := hblank rfl
      cases hc
      exact .space ht
    · obtain ⟨ht, hc⟩ := hblank rfl
      cases hc
      exact .root ht
    · obtain ⟨ht, hc⟩ := hblank rfl
      obtain ⟨a, b, rfl, rfl⟩ := hpair hc
      exact .sub ht
    · obtain ⟨ht, hc⟩ := hblank rfl
      obtain ⟨a, b, rfl, rfl⟩ := hpair hc
      exact .sup ht
    · obtain ⟨rfl, rfl⟩ := hleaf rfl
      exact .text

/-- An unknown element is closed as such. -/
theorem close_unknown {tag : String} (h : OpenElement.isKnown tag = false)
    (as : List (String × String)) : OpenElement.close ⟨tag, as, [], []⟩ = .ok (.unknown tag) := by
  have hleaf : OpenElement.leaf? tag = none := by
    unfold OpenElement.leaf?
    split
    all_goals first
      | rfl
      | cases h
  have hblank : Text.allBlank [] = true := rfl
  simp only [OpenElement.close, hleaf, hblank, if_true, OpenElement.container]
  split
  all_goals first
    | rfl
    | cases h

end Closed

namespace Holds

variable {nodes nodes' : List Node} {text text' cs : List Char} {es fs : List Event} {node : Node}

theorem append (h' : Holds nodes' text' fs) : ∀ {nodes text es}, Holds nodes text es →
    Holds (nodes ++ nodes') (text ++ text') (es ++ fs)
  | _, _, _, .nil => h'
  | _, _, _, .piece hc h => by
    rw [List.append_assoc, List.cons_append]
    exact .piece hc (append h' h)
  | _, _, _, .node hw h => by
    rw [List.append_assoc, List.cons_append]
    exact .node hw (append h' h)

end Holds

/-- A tree that can be written: leaves hold trimmed texts, and unknown elements are not known. -/
inductive Node.Plain : Node → Prop where
  | row {children} : (∀ n ∈ children, n.Plain) → Plain (.row children)
  | fenced {opener closer children} : (∀ n ∈ children, n.Plain) →
      Plain (.fenced opener closer children)
  | fraction {a b} : a.Plain → b.Plain → Plain (.fraction a b)
  | sub {a b} : a.Plain → b.Plain → Plain (.sub a b)
  | sup {a b} : a.Plain → b.Plain → Plain (.sup a b)
  | root {children} : (∀ n ∈ children, n.Plain) → Plain (.root children)
  | identifier {name} : Text.trimString name = name → Plain (.identifier name)
  | number {digits} : Text.trimString digits = digits → Plain (.number digits)
  | operator {symbol} : Text.trimString symbol = symbol → Plain (.operator symbol)
  | space {width} : Plain (.space width)
  | text {content} : Text.trimString content = content → Plain (.text content)
  | unknown {tag} : OpenElement.isKnown tag = false → Plain (.unknown tag)

theorem trim_trim (cs : List Char) : Text.trim (Text.trim cs) = Text.trim cs := by
  have hend (l : List Char) : Text.trimEnd (Text.trimEnd l) = Text.trimEnd l :=
    List.rdropWhile_idempotent Text.isBlank l
  -- what is left starts with what it started with before its end was cut
  have hstart : Text.trimStart (Text.trim cs) = Text.trim cs := by
    cases h : Text.trim cs with
    | nil => rfl
    | cons c r =>
      obtain ⟨rest, hrest⟩ : c :: r <+: Text.trimStart cs :=
        h ▸ List.rdropWhile_prefix Text.isBlank _
      have hself : Text.trimStart (c :: r ++ rest) = c :: r ++ rest := by
        rw [hrest]
        exact List.dropWhile_idempotent Text.isBlank cs
      have hc : ¬Text.isBlank c = true :=
        List.dropWhile_eq_self_iff.1 hself (Nat.succ_pos _)
      exact List.dropWhile_cons_of_neg hc
  rw [Text.trim, hstart, Text.trim, hend]

theorem trimString_trim (cs : List Char) :
    Text.trimString (String.ofList (Text.trim cs)) = String.ofList (Text.trim cs) := by
  rw [Text.trimString, String.toList_ofList, trim_trim]

theorem Denotes.plain {tag : String} {as : List (String × String)} {children : List Node}
    {text : List Char} {node : Node} (h : Denotes tag as children text node)
    (hc : ∀ n ∈ children, n.Plain) : node.Plain := by
  cases h with
  | identifier => exact .identifier (trimString_trim text)
  | number => exact .number (trimString_trim text)
  | operator => exact .operator (trimString_trim text)
  | text => exact .text (trimString_trim text)
  | math | row => exact .row hc
  | fenced => exact .fenced hc
  | root => exact .root hc
  | space => exact .space
  | fraction => exact .fraction (hc _ (by simp)) (hc _ (by simp))
  | sub => exact .sub (hc _ (by simp)) (hc _ (by simp))
  | sup => exact .sup (hc _ (by simp)) (hc _ (by simp))

mutual

theorem Writes.plain {node : Node} {es : List Event} : Writes node es → node.Plain
  | .known hd hc _ => hd.plain hc.plain
  | .unknown htag _ _ => .unknown htag

/-- What is written can be written. -/
theorem Holds.plain {nodes : List Node} {text : List Char} {es : List Event} :
    Holds nodes text es → ∀ n ∈ nodes, n.Plain
  | .nil => fun _ hn => absurd hn List.not_mem_nil
  | .piece _ h => h.plain
  | .node hw h => List.forall_mem_cons.2 ⟨hw.plain, h.plain⟩

end

section Existence

/-- Trees that have writings have one without blanks between them. -/
theorem exists_holds {nodes : List Node} (h : ∀ n ∈ nodes, ∃ es, Writes n es) :
    ∃ es, Holds nodes [] es := by
  induction nodes with
  | nil => exact ⟨[], .nil⟩
  | cons n nodes ih =>
    obtain ⟨fs, hf⟩ := h n List.mem_cons_self
    obtain ⟨es, he⟩ := ih fun m hm => h m (List.mem_cons_of_mem _ hm)
    exact ⟨fs ++ es, .node hf he⟩

/-- Every tag is the local name of some name. -/
theorem localName_prefixed (tag : String) : localName (':' :: tag.toList) = tag := by
  rw [localName, List.dropWhile_cons_of_neg (by decide)]
  exact String.ofList_toList

theorem exists_known {as : List (List Char × List Char)} {tag : String} {children : List Node}
    {text : List Char} {content : List Event} {node : Node}
    (hnames : ∀ a ∈ as, IsAttributeName a.1) (hdistinct : (as.map Prod.fst).Nodup)
    (hd : Denotes tag (as.map fun a => (String.ofList a.1, String.ofList a.2)) children text node)
    (hc : Holds children text content) : ∃ es, Writes node es :=
  ⟨_, .known hd hc (.around (localName_prefixed tag) (localName_prefixed tag)
    (attributes?_written hnames hdistinct))⟩

theorem exists_leaf {tag : String} {build : String → Node}
    (hd : ∀ text, Denotes tag [] [] text (build (String.ofList (Text.trim text)))) {s : String}
    (hs : Text.trimString s = s) : ∃ es, Writes (build s) es := by
  have hpiece : Holds [] s.toList [.text s.toList] := by
    have h := Holds.piece (e := .text s.toList) rfl .nil
    rwa [List.append_nil] at h
  have hleaf := hd s.toList
  rw [show String.ofList (Text.trim s.toList) = s from hs] at hleaf
  exact exists_known (List.forall_mem_nil _) List.nodup_nil hleaf hpiece

/-- The trees that have a writing. -/
theorem exists_writing_iff {node : Node} : (∃ es, Writes node es) ↔ node.Plain := by
  constructor
  · rintro ⟨es, h⟩
    exact h.plain
  · have hnone : ∀ a ∈ ([] : List (List Char × List Char)), IsAttributeName a.1 :=
      List.forall_mem_nil _
    have hpair {n m : Node} (hn : ∃ es, Writes n es) (hm : ∃ es, Writes m es) :
        ∃ es, Holds [n, m] [] es :=
      exists_holds (List.forall_mem_cons.2 ⟨hn, List.forall_mem_singleton.2 hm⟩)
    have hopen : IsAttributeName "open".toList := by decide
    have hclose : IsAttributeName "close".toList := by decide
    have hwidth : IsAttributeName "width".toList := by decide
    have hdistinct : ["open".toList, "close".toList].Nodup := by decide
    intro h
    induction h with
    | row _ ih =>
      obtain ⟨content, hc⟩ := exists_holds ih
      exact exists_known hnone List.nodup_nil (.row rfl) hc
    | @fenced opener closer children _ ih =>
      obtain ⟨content, hc⟩ := exists_holds ih
      have hd : Denotes "mfenced" [("open", String.ofList opener.toList),
          ("close", String.ofList closer.toList)] children [] (.fenced opener closer children) := by
        rw [String.ofList_toList, String.ofList_toList]
        exact .fenced rfl
      exact @exists_known [("open".toList, opener.toList), ("close".toList, closer.toList)] _ _ _ _ _
        (List.forall_mem_cons.2 ⟨hopen, List.forall_mem_singleton.2 hclose⟩) hdistinct hd hc
    | fraction _ _ iha ihb =>
      obtain ⟨content, hc⟩ := hpair iha ihb
      exact exists_known hnone List.nodup_nil (.fraction rfl) hc
    | sub _ _ iha ihb =>
      obtain ⟨content, hc⟩ := hpair iha ihb
      exact exists_known hnone List.nodup_nil (.sub rfl) hc
    | sup _ _ iha ihb =>
      obtain ⟨content, hc⟩ := hpair iha ihb
      exact exists_known hnone List.nodup_nil (.sup rfl) hc
    | root _ ih =>
      obtain ⟨content, hc⟩ := exists_holds ih
      exact exists_known hnone List.nodup_nil (.root rfl) hc
    | identifier hs => exact exists_leaf (fun _ => .identifier) hs
    | number hs => exact exists_leaf (fun _ => .number) hs
    | operator hs => exact exists_leaf (fun _ => .operator) hs
    | text hs => exact exists_leaf (fun _ => .text) hs
    | @space width =>
      have hd : Denotes "mspace" [("width", String.ofList width.toList)] [] [] (.space width) := by
        rw [String.ofList_toList]
        exact .space rfl
      exact @exists_known [("width".toList, width.toList)] _ _ _ _ _
        (List.forall_mem_singleton.2 hwidth) (List.pairwise_singleton _ _) hd .nil
    | unknown htag =>
      exact ⟨_, .unknown htag .nil (.single (localName_prefixed _) (attributes?_written hnone
        List.nodup_nil))⟩

end Existence

end Formula

end Kinetics
