import Kinetics.Proofs.Formula.Written
import Kinetics.Proofs.Hygiene.Name

/-!
# Kinetics.Proofs.Formula.Symbols

The symbols of a formula and their names. A symbol stands for an identifier that is no constant, for
a subscript, or for a superscript that is a star. Compiling writes one symbol for each of them, in
their order (`compile_symbols`). What compound symbols are called consists of the characters of
identifiers, whatever leaves they are made of (`continues_compoundName`); it may start with a digit.
-/

namespace Kinetics

namespace Formula

namespace Node

open Text
open Program (IsIdentifier)

variable {suffix : String} {n : Node} {ns : List Node} {fs : List Fragment}
  {parts : List (List Fragment)}

section Identifiers

mutual

/-- The names of the identifiers anywhere in a formula. -/
def identifiers : Node → List String
  | .row children => identifiersAmong children
  | .fenced _ _ children => identifiersAmong children
  | .root children => identifiersAmong children
  | .fraction a b => identifiers a ++ identifiers b
  | .sub a b => identifiers a ++ identifiers b
  | .sup a b => identifiers a ++ identifiers b
  | .identifier s => [s]
  | .number _ => []
  | .operator _ => []
  | .space _ => []
  | .text _ => []
  | .unknown _ => []

def identifiersAmong : List Node → List String
  | [] => []
  | n :: ns => identifiers n ++ identifiersAmong ns

end

theorem identifiersAmong_append (us vs : List Node) :
    identifiersAmong (us ++ vs) = identifiersAmong us ++ identifiersAmong vs := by
  induction us with
  | nil => rfl
  | cons u us ih => rw [List.cons_append, identifiersAmong, identifiersAmong, ih, List.append_assoc]

theorem identifiers_joinIf (joins : Bool) (before : Option Node) (ns : List Node) :
    identifiersAmong (joinIf joins before ns) = identifiersAmong ns := by
  induction ns generalizing before with
  | nil => cases joins <;> rfl
  | cons n ns ih =>
    rw [joinIf_cons, identifiersAmong_append, identifiersAmong, identifiersAmong, ih]
    split <;> rfl

mutual

/-- Signs of multiplication are no identifiers. -/
theorem identifiers_explicit : ∀ n : Node, identifiers n.explicit = identifiers n
  | .row ns => by
    rw [explicit_row_eq, identifiers, joined, identifiers_joinIf, identifiers_explicitAll ns,
      identifiers]
  | .fenced _ _ ns => by rw [explicit, identifiers, identifiers_explicitAll ns, identifiers]
  | .root ns => by rw [explicit, identifiers, identifiers_explicitAll ns, identifiers]
  | .fraction a b => by
    rw [explicit, identifiers, identifiers_explicit a, identifiers_explicit b, identifiers]
  | .sup a b => by
    rw [explicit, identifiers, identifiers_explicit a, identifiers_explicit b, identifiers]
  | .sub _ _ => rfl
  | .identifier _ => rfl
  | .number _ => rfl
  | .operator _ => rfl
  | .space _ => rfl
  | .text _ => rfl
  | .unknown _ => rfl

theorem identifiers_explicitAll : ∀ ns : List Node,
    identifiersAmong (explicitAll ns) = identifiersAmong ns
  | [] => rfl
  | n :: ns => by
    rw [explicitAll, identifiersAmong]
    split
    · rename_i hn
      rw [identifiers_explicitAll ns]
      cases n <;> first | rfl | cases hn
    · rw [identifiersAmong, identifiers_explicit n, identifiers_explicitAll ns]

end

end Identifiers

section Symbols

mutual

/-- The parts of a formula that are written as symbols. -/
def symbols : Node → List Node
  | .row children => symbolsAmong children
  | .fenced _ _ children => symbolsAmong children
  | .root children => symbolsAmong children
  | .fraction a b => symbols a ++ symbols b
  | .sub a b => [.sub a b]
  | .sup a b => if isAsterisk b then [.sup a b] else symbols a ++ symbols b
  | .identifier s => if (constants.lookup s).isSome then [] else [.identifier s]
  | .number _ => []
  | .operator _ => []
  | .space _ => []
  | .text _ => []
  | .unknown _ => []

def symbolsAmong : List Node → List Node
  | [] => []
  | n :: ns => symbols n ++ symbolsAmong ns

end

/-- What a symbol is called: an identifier by its own name. -/
def symbolName : Node → String
  | .identifier s => s
  | n => compoundName n

/-- The names of the symbols among fragments. -/
def namesOf (fs : List Fragment) : List String :=
  fs.filterMap Fragment.symbol?

theorem namesOf_append (fs gs : List Fragment) : namesOf (fs ++ gs) = namesOf fs ++ namesOf gs :=
  List.filterMap_append

theorem namesOf_text (code : String) (fs : List Fragment) :
    namesOf (.text code :: fs) = namesOf fs :=
  rfl

theorem namesOf_texts (ws : List String) : namesOf (ws.map .text) = [] := by
  rw [namesOf, List.filterMap_eq_nil_iff]
  intro f hf
  obtain ⟨w, -, rfl⟩ := List.mem_map.1 hf
  rfl

theorem namesOf_parenthesized (fs : List Fragment) : namesOf (parenthesized fs) = namesOf fs := by
  rw [parenthesized, List.cons_append, namesOf_text, namesOf_append]
  exact List.append_nil _

theorem namesOf_commas (parts : List (List Fragment)) :
    namesOf (parts.intersperse [.text ","]).flatten = namesOf parts.flatten := by
  induction parts with
  | nil => rfl
  | cons p parts ih =>
    cases parts with
    | nil => rfl
    | cons q parts =>
      rw [List.intersperse_cons_cons, List.flatten_cons, List.flatten_cons, List.flatten_cons,
        namesOf_append, namesOf_append, namesOf_append, ih]
      rfl

theorem namesOf_callCode (k : Keyword) (parts : List (List Fragment)) :
    namesOf (callCode k parts) = namesOf parts.flatten := by
  rw [callCode_eq, namesOf_text, namesOf_append, namesOf_texts, List.append_nil]
  split
  · exact namesOf_commas parts
  · rfl

theorem namesOf_operator {s : String} (h : fragments suffix (.operator s) = .ok fs) :
    namesOf fs = [] := by
  rw [fragments] at h
  split at h <;>
  · cases h
    rfl

mutual

/-- The code of a formula has one symbol for each that the formula has. -/
theorem fragments_symbols : ∀ (n : Node) {fs : List Fragment}, fragments suffix n = .ok fs →
    namesOf fs = (symbols n).map symbolName
  | .row ns, fs, h => by
    rw [fragments_row_eq] at h
    unfold rowCode at h
    split at h
    · obtain ⟨parts, hparts, rfl⟩ := map_ok.1 h
      exact fragmentsEach_symbols ns hparts
    · split at h
      · cases h
      · rename_i k hk _ _ _
        obtain ⟨parts, hparts, rfl⟩ := map_ok.1 h
        have hns := fragmentsEach_symbols ns hparts
        rw [namesOf_callCode, symbols, ← hns]
        -- The operator that a call form starts with is no argument.
        cases ns with
        | nil => cases hk
        | cons n ns =>
          obtain ⟨fn, rest, hn, -, rfl⟩ := fragmentsEach_cons_iff.1 hparts
          cases n with
          | operator s =>
            rw [List.tail_cons, List.flatten_cons, namesOf_append, namesOf_operator hn,
              List.nil_append]
          | _ => cases hk
  | .fenced opener closer ns, fs, h => by
    rw [fragments] at h
    split at h
    · cases h
    · rename_i parts hparts
      cases h
      rw [List.cons_append, namesOf_text, namesOf_append,
        namesOf_commas, fragmentsEach_symbols ns hparts, symbols]
      exact List.append_nil _
  | .root ns, fs, h => by
    rw [fragments] at h
    split at h
    · cases h
    · rename_i parts hparts
      cases h
      rw [namesOf_append, namesOf_parenthesized, fragmentsEach_symbols ns hparts, symbols]
      exact List.append_nil _
  | .fraction a b, fs, h => by
    rw [fragments] at h
    split at h
    · cases h
    · rename_i fa ha
      split at h
      · cases h
      · rename_i fb hb
        cases h
        rw [namesOf_append, namesOf_text, namesOf_parenthesized,
          namesOf_parenthesized, fragments_symbols a ha, fragments_symbols b hb, symbols,
          List.map_append]
  | .sup a b, fs, h => by
    rw [fragments] at h
    rw [symbols]
    split at h
    · cases h
      rw [if_pos ‹_›]
      rfl
    · rw [if_neg ‹_›]
      split at h
      · cases h
      · rename_i fa ha
        split at h
        · cases h
        · rename_i fb hb
          cases h
          rw [namesOf_append, namesOf_text,
            namesOf_parenthesized, namesOf_parenthesized, fragments_symbols a ha,
            fragments_symbols b hb, List.map_append]
  | .sub _ _, _, h => by
    rw [fragments] at h
    cases h
    rfl
  | .identifier s, _, h => by
    rw [fragments] at h
    rw [symbols]
    split at h
    · rename_i hc
      cases h
      rw [hc]
      rfl
    · rename_i hc
      cases h
      rw [hc]
      rfl
  | .number s, _, h => by
    rw [fragments] at h
    cases h
    rfl
  | .operator s, _, h => namesOf_operator h
  | .text s, _, h => by
    rw [fragments] at h
    split at h <;>
    · cases h
      rfl
  | .space _, _, h => by
    rw [fragments] at h
    cases h
    rfl
  | .unknown _, _, h => by
    rw [fragments] at h
    cases h
    rfl

theorem fragmentsEach_symbols : ∀ (ns : List Node) {parts : List (List Fragment)},
    fragmentsEach suffix ns = .ok parts →
      namesOf parts.flatten = (symbolsAmong ns).map symbolName
  | [], _, h => by
    cases h
    rfl
  | n :: ns, _, h => by
    obtain ⟨fs, rest, hn, hrest, rfl⟩ := fragmentsEach_cons_iff.1 h
    rw [List.flatten_cons, namesOf_append, fragments_symbols n hn, fragmentsEach_symbols ns hrest,
      symbolsAmong, List.map_append]

end

/-- The symbols of a compiled formula. -/
theorem compile_symbols {e : Expression} (h : n.compile suffix = .ok e) :
    namesOf e.fragments = n.explicit.symbols.map symbolName := by
  rw [compile] at h
  split at h
  · cases h
  · rename_i fs hfs
    cases h
    exact fragments_symbols n.explicit hfs

end Symbols

section Names

/-- All characters continue an identifier. -/
def Continues (s : String) : Prop :=
  ∀ c ∈ s.toList, isIdentifierContinue c = true

theorem Continues.append {s t : String} (hs : Continues s) (ht : Continues t) :
    Continues (s ++ t) := by
  rw [Continues, String.toList_append]
  exact List.forall_mem_append.2 ⟨hs, ht⟩

theorem continues_leafName (s : String) : Continues (leafName s) := by
  intro c hc
  rw [leafName, String.toList_ofList] at hc
  obtain ⟨d, -, rfl⟩ := List.mem_map.1 hc
  split
  · assumption
  · exact Program.isIdentifierContinue_underscore

theorem continues_of_all {s : String} (h : s.toList.all isIdentifierContinue = true) :
    Continues s :=
  List.all_eq_true.1 h

theorem continues_joint : Continues "_" ∧ Continues "_star" ∧ Continues "" :=
  ⟨continues_of_all (by decide +kernel), continues_of_all (by decide +kernel),
    continues_of_all (by decide +kernel)⟩

mutual

/-- Whatever leaves a compound symbol is made of, its name has characters of identifiers only. -/
theorem continues_compoundName : ∀ n : Node, Continues (compoundName n)
  | .row ns => continues_compoundNames ns
  | .fenced _ _ ns => continues_compoundNames ns
  | .root ns => continues_compoundNames ns
  | .fraction a b => (continues_compoundName a).append (continues_compoundName b)
  | .sub a b =>
    ((continues_compoundName a).append continues_joint.1).append (continues_compoundName b)
  | .sup a b => by
    rw [compoundName]
    split
    · exact (continues_compoundName a).append continues_joint.2.1
    · exact (continues_compoundName a).append (continues_compoundName b)
  | .identifier s => continues_leafName s
  | .number s => continues_leafName s
  | .operator s => continues_leafName s
  | .text s => continues_leafName s
  | .space _ => continues_joint.2.2
  | .unknown _ => continues_joint.2.2

theorem continues_compoundNames : ∀ ns : List Node, Continues (compoundNames ns)
  | [] => continues_joint.2.2
  | n :: ns => (continues_compoundName n).append (continues_compoundNames ns)

end

/-- What a symbol of a formula with such identifiers can be. -/
def IsSymbolOf (names : List String) : Node → Prop
  | .identifier s => s ∈ names ∧ constants.lookup s = none
  | .sub _ _ => True
  | .sup _ b => isAsterisk b = true
  | _ => False

theorem IsSymbolOf.mono {names more : List String} (h : IsSymbolOf names n) (hs : names ⊆ more) :
    IsSymbolOf more n := by
  cases n with
  | identifier s => exact h.imp_left fun hn => hs hn
  | _ => exact h

mutual

/-- Symbols are identifiers of the formula that are no constants, subscripts and stars. -/
theorem isSymbolOf_symbols : ∀ n : Node, ∀ m ∈ symbols n, IsSymbolOf (identifiers n) m
  | .row ns => isSymbolOf_symbolsAmong ns
  | .fenced _ _ ns => isSymbolOf_symbolsAmong ns
  | .root ns => isSymbolOf_symbolsAmong ns
  | .fraction a b => by
    rw [symbols, identifiers, List.forall_mem_append]
    exact ⟨fun m hm => (isSymbolOf_symbols a m hm).mono (List.subset_append_left _ _),
      fun m hm => (isSymbolOf_symbols b m hm).mono (List.subset_append_right _ _)⟩
  | .sup a b => by
    rw [symbols, identifiers]
    split
    · exact List.forall_mem_singleton.2 ‹_›
    · rw [List.forall_mem_append]
      exact ⟨fun m hm => (isSymbolOf_symbols a m hm).mono (List.subset_append_left _ _),
        fun m hm => (isSymbolOf_symbols b m hm).mono (List.subset_append_right _ _)⟩
  | .sub _ _ => List.forall_mem_singleton.2 trivial
  | .identifier s => by
    rw [symbols]
    split
    · exact List.forall_mem_nil _
    · rename_i hc
      exact List.forall_mem_singleton.2
        ⟨List.mem_singleton_self s, Option.not_isSome_iff_eq_none.1 hc⟩
  | .number _ => List.forall_mem_nil _
  | .operator _ => List.forall_mem_nil _
  | .space _ => List.forall_mem_nil _
  | .text _ => List.forall_mem_nil _
  | .unknown _ => List.forall_mem_nil _

theorem isSymbolOf_symbolsAmong : ∀ ns : List Node,
    ∀ m ∈ symbolsAmong ns, IsSymbolOf (identifiersAmong ns) m
  | [] => List.forall_mem_nil _
  | n :: ns => by
    rw [symbolsAmong, identifiersAmong, List.forall_mem_append]
    exact ⟨fun m hm => (isSymbolOf_symbols n m hm).mono (List.subset_append_left _ _),
      fun m hm => (isSymbolOf_symbolsAmong ns m hm).mono (List.subset_append_right _ _)⟩

end

/-- All identifiers have names of identifiers; the glyphs of constants aside. -/
def PlainIdentifiers (n : Node) : Prop :=
  ∀ s ∈ n.identifiers, constants.lookup s = none → IsIdentifier s

/-- Where identifiers have plain names, the names of all symbols are characters of identifiers. -/
theorem PlainIdentifiers.continues (h : n.PlainIdentifiers) :
    ∀ m ∈ n.explicit.symbols, Continues m.symbolName ∧ m.symbolName.toList ≠ [] := by
  intro m hm
  have hs := isSymbolOf_symbols _ m hm
  rw [identifiers_explicit] at hs
  cases m with
  | identifier s =>
    obtain ⟨⟨c, hc, -⟩, hall⟩ := h s hs.1 hs.2
    refine ⟨hall, ?_⟩
    rw [symbolName]
    rintro hnil
    simp [hnil] at hc
  | sub a b =>
    refine ⟨continues_compoundName _, ?_⟩
    simp [symbolName, compoundName]
  | sup a b =>
    have hstar : b.isAsterisk = true := hs
    refine ⟨continues_compoundName _, ?_⟩
    simp [symbolName, compoundName, hstar]
  | _ => exact hs.elim

end Names

end Node

end Formula

end Kinetics
