import Kinetics.Markup.Attribute
import Mathlib.Data.List.TakeWhile

/-!
# Kinetics.Proofs.Markup.Attribute

Writing the attributes of a start tag. Any text can be the value of an attribute: quotes and
ampersands are written as references, and reading resolves them again.
-/

namespace Kinetics

namespace Markup

/-- A character of an attribute value as it is written. -/
def quoteCharacter (c : Char) : List Char :=
  if c = '"' then "&quot;".toList else if c = '&' then "&amp;".toList else [c]

/-- An attribute as it is written, with a blank before it. -/
def writeAttribute (name value : List Char) : List Char :=
  ' ' :: (name ++ '=' :: '"' :: (value.flatMap quoteCharacter ++ ['"']))

/-- A name that an attribute can have: no separators, equals signs and colons. -/
def IsAttributeName (name : List Char) : Prop :=
  name ≠ [] ∧ ∀ c ∈ name, endsName c = false ∧ c ≠ ':'

-- through `List.all`, since a statement on all characters is otherwise decided by going through them
instance (name : List Char) : Decidable (IsAttributeName name) :=
  decidable_of_iff (name ≠ [] ∧ name.all (fun c => !endsName c && c != ':') = true)
    (by simp [IsAttributeName])

theorem resolveAll_quoted (value : List Char) :
    resolveAll (value.flatMap quoteCharacter) = some value := by
  induction value with
  | nil => simp [resolveAll]
  | cons c cs ih =>
    have hreference (name : List Char) (d : Char) (rest : List Char)
        (hname : takeReference (name ++ ';' :: rest) = some (name, rest))
        (hd : resolve? name = some d) :
        resolveAll ('&' :: (name ++ ';' :: rest)) = (resolveAll rest).map (d :: ·) := by
      rw [resolveAll, if_pos rfl]
      split
      · rename_i h
        rw [hname] at h
        cases h
      · rename_i h
        rw [hname] at h
        cases h
        rw [hd]
    rw [List.flatMap_cons, quoteCharacter]
    split
    · rename_i hc
      subst hc
      exact (hreference "quot".toList '"' _ rfl rfl).trans (congrArg (Option.map _) ih)
    · split
      · rename_i hc
        subst hc
        exact (hreference "amp".toList '&' _ rfl rfl).trans (congrArg (Option.map _) ih)
      · rename_i hc
        rw [List.singleton_append, resolveAll, if_neg hc, ih]
        rfl

theorem quote_not_mem_quoted (value : List Char) {c : Char}
    (hc : c ∈ value.flatMap quoteCharacter) : c ≠ '"' := by
  obtain ⟨d, -, hd⟩ := List.mem_flatMap.1 hc
  rintro rfl
  unfold quoteCharacter at hd
  split at hd
  · exact absurd hd (by decide)
  · split at hd
    · exact absurd hd (by decide)
    · rename_i hne _
      exact hne (List.mem_singleton.1 hd).symm

theorem takeAttribute_written {c : Char} {name : List Char} (h : IsAttributeName (c :: name))
    (value rest : List Char) :
    takeAttribute c (name ++ '=' :: '"' :: (value.flatMap quoteCharacter ++ '"' :: rest)) =
      some ((c :: name, value.flatMap quoteCharacter), rest) := by
  have hname : ∀ d ∈ name, (!endsName d) = true := by
    intro d hd
    rw [(h.2 d (List.mem_cons_of_mem _ hd)).1]
    rfl
  have hvalue : ∀ d ∈ value.flatMap quoteCharacter, (d != '"') = true := fun d hd =>
    bne_iff_ne.2 (quote_not_mem_quoted value hd)
  have hfirst (tail : List Char) : (name ++ '=' :: tail).takeWhile (fun d => !endsName d) = name := by
    rw [List.takeWhile_append_of_pos hname, List.takeWhile_cons_of_neg (by decide), List.append_nil]
  have hafter (tail : List Char) :
      (name ++ '=' :: tail).dropWhile (fun d => !endsName d) = '=' :: tail := by
    rw [List.dropWhile_append_of_pos hname, List.dropWhile_cons_of_neg (by decide)]
  have hquoted : (value.flatMap quoteCharacter ++ '"' :: rest).takeWhile (fun d => d != '"') =
      value.flatMap quoteCharacter := by
    rw [List.takeWhile_append_of_pos hvalue, List.takeWhile_cons_of_neg (by decide), List.append_nil]
  have hrest : (value.flatMap quoteCharacter ++ '"' :: rest).dropWhile (fun d => d != '"') =
      '"' :: rest := by
    rw [List.dropWhile_append_of_pos hvalue, List.dropWhile_cons_of_neg (by decide)]
  have hblank {d : Char} (hd : isSeparator d = false) (tail : List Char) :
      (d :: tail).dropWhile isSeparator = d :: tail :=
    List.dropWhile_cons_of_neg (by rw [hd]; exact Bool.false_ne_true)
  simp only [takeAttribute, hfirst, hafter, hblank (show isSeparator '=' = false from rfl),
    hblank (show isSeparator '"' = false from rfl), hrest, hquoted]
  rfl

theorem attributesFrom_written {name : List Char} (h : IsAttributeName name) {seen : List (List Char)}
    (hnew : name ∉ seen) (value rest : List Char) :
    attributesFrom seen (writeAttribute name value ++ rest) =
      (attributesFrom (name :: seen) rest).map ((name, value) :: ·) := by
  obtain ⟨c, name, rfl⟩ := List.exists_cons_of_ne_nil h.1
  have hc : isSeparator c = false :=
    (Bool.or_eq_false_iff.1 (h.2 c List.mem_cons_self).1).2
  have htake := takeAttribute_written h value rest
  simp only [writeAttribute, List.cons_append, List.append_assoc, List.nil_append]
  rw [attributesFrom, if_pos (show isSeparator ' ' = true from rfl), attributesFrom, if_neg (by rw [hc]; exact Bool.false_ne_true)]
  split
  · rename_i hnone
    rw [htake] at hnone
    cases hnone
  · rename_i hsome
    rw [htake] at hsome
    cases hsome
    rw [if_neg (by rwa [List.contains_iff_mem]), resolveAll_quoted]

theorem localName_plain {name : List Char} (h : ∀ c ∈ name, c ≠ ':') :
    localName name = String.ofList name := by
  have hdrop : name.dropWhile (· != ':') = [] :=
    List.dropWhile_eq_nil_iff.2 fun c hc => bne_iff_ne.2 (h c hc)
  rw [localName, hdrop]

/-- Attributes with names of their own are read back as they were written. -/
theorem attributes?_written {as : List (List Char × List Char)} (hnames : ∀ a ∈ as, IsAttributeName a.1)
    (hdistinct : (as.map Prod.fst).Nodup) :
    attributes? (as.flatMap fun a => writeAttribute a.1 a.2) =
      some (as.map fun a => (String.ofList a.1, String.ofList a.2)) := by
  have hread (seen : List (List Char)) (hseen : ∀ a ∈ as, a.1 ∉ seen) :
      attributesFrom seen (as.flatMap fun a => writeAttribute a.1 a.2) = some as := by
    induction as generalizing seen with
    | nil => simp [attributesFrom]
    | cons a as ih =>
      rw [List.map_cons, List.nodup_cons] at hdistinct
      rw [List.flatMap_cons,
        attributesFrom_written (hnames a List.mem_cons_self) (hseen a List.mem_cons_self),
        ih (fun b hb => hnames b (List.mem_cons_of_mem _ hb)) hdistinct.2]
      · rfl
      · intro b hb hmem
        rcases List.mem_cons.1 hmem with hba | hmem
        · exact hdistinct.1 (hba ▸ List.mem_map_of_mem hb)
        · exact hseen b (List.mem_cons_of_mem _ hb) hmem
  rw [attributes?, hread [] fun _ _ => List.not_mem_nil, Option.map_some]
  refine congrArg some (List.map_congr_left fun a ha => ?_)
  rw [localName_plain fun c hc => ((hnames a ha).2 c hc).2]

end Markup

end Kinetics
