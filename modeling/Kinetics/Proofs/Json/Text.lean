import Kinetics.Json.Reader
import Kinetics.Proofs.Json.Lexeme

/-!
# Kinetics.Proofs.Json.Text

Reading the text of a JSON value. Compact or pretty, the text of a value has the same lexemes, and
they are read as the value.
-/

namespace Kinetics

namespace Json

mutual

/-- The lexemes of a value. -/
def lexemes : Json → List Lexeme
  | .null => [.null]
  | .bool b => [.bool b]
  | .number n => [.number n]
  | .string l => [.string l]
  | .array items => .openArray :: itemLexemes items
  | .object members => .openObject :: memberLexemes members

/-- The lexemes of the items of an array, and of its closing bracket. -/
def itemLexemes : List Json → List Lexeme
  | [] => [.closeArray]
  | j :: js => lexemes j ++ moreItemLexemes js

def moreItemLexemes : List Json → List Lexeme
  | [] => [.closeArray]
  | j :: js => .comma :: (lexemes j ++ moreItemLexemes js)

/-- The lexemes of the members of an object, and of its closing brace. -/
def memberLexemes : List (Literal × Json) → List Lexeme
  | [] => [.closeObject]
  | (l, j) :: ms => .string l :: .colon :: (lexemes j ++ moreMemberLexemes ms)

def moreMemberLexemes : List (Literal × Json) → List Lexeme
  | [] => [.closeObject]
  | (l, j) :: ms => .comma :: .string l :: .colon :: (lexemes j ++ moreMemberLexemes ms)

end

/-- A literal that ends where it is closed. -/
def Literal.Whole (l : Literal) : Prop :=
  ∀ rest, takeLiteral (l.raw ++ '"' :: rest) = some (l.raw, rest)

/-- A value all of whose numerals are regular and whose literals end where they are closed. -/
inductive Regular : Json → Prop where
  | null : Regular .null
  | bool {b} : Regular (.bool b)
  | number {n} : n.Regular → Regular (.number n)
  | string {l} : l.Whole → Regular (.string l)
  | array {items} : (∀ j ∈ items, Regular j) → Regular (.array items)
  | object {members} : (∀ m ∈ members, m.1.Whole) → (∀ m ∈ members, Regular m.2) →
      Regular (.object members)

section Lexing

theorem endsNumeral_mark {c : Char} {l : Lexeme} (h : punctuation? c = some l) (cs : List Char) :
    EndsNumeral (c :: cs) := by
  refine endsNumeral_cons ?_ cs
  unfold punctuation? at h
  split at h
  all_goals first
    | decide
    | cases h

theorem ends_compactMoreItems (js : List Json) : EndsNumeral (compactMoreItems js) := by
  cases js with
  | nil => exact endsNumeral_mark (l := .closeArray) rfl []
  | cons j js => exact endsNumeral_mark (l := .comma) rfl _

theorem ends_compactMoreMembers (ms : List (Literal × Json)) :
    EndsNumeral (compactMoreMembers ms) := by
  cases ms with
  | nil => exact endsNumeral_mark (l := .closeObject) rfl []
  | cons m ms => exact endsNumeral_mark (l := .comma) rfl _

/-- A member is its name, a colon and, perhaps after separators, its value and what follows it. -/
theorem lexes_member (blanks : List Char) {l : Literal} {cs ds : List Char} {ls ms : List Lexeme}
    (hl : l.Whole) (hb : ∀ c ∈ blanks, isSeparator c = true) (h : Lexes cs ls) (h' : Lexes ds ms)
    (hd : EndsNumeral ds) :
    Lexes (quote l ++ ':' :: (blanks ++ (cs ++ ds))) (.string l :: .colon :: (ls ++ ms)) :=
  (Lexes.literal hl).append (.mark rfl rfl (.separators hb (h.append h' hd)))
    (endsNumeral_mark (l := .colon) rfl _)

mutual

/-- The compact text of a value is read as its lexemes. -/
theorem lexes_compact : ∀ {j : Json}, j.Regular → Lexes (compact j) (lexemes j)
  | .null, _ => .null
  | .bool true, _ => .bool true
  | .bool false, _ => .bool false
  | .number _, .number hn => .number hn
  | .string _, .string hl => .literal hl
  | .array _, .array h => .mark rfl rfl (lexes_compactItems h)
  | .object _, .object hl h => .mark rfl rfl (lexes_compactMembers hl h)

theorem lexes_compactItems : ∀ {js : List Json}, (∀ j ∈ js, j.Regular) →
    Lexes (compactItems js) (itemLexemes js)
  | [], _ => .mark rfl rfl .nil
  | j :: js, h => by
    obtain ⟨hj, hjs⟩ := List.forall_mem_cons.1 h
    exact (lexes_compact hj).append (lexes_compactMoreItems hjs) (ends_compactMoreItems js)

theorem lexes_compactMoreItems : ∀ {js : List Json}, (∀ j ∈ js, j.Regular) →
    Lexes (compactMoreItems js) (moreItemLexemes js)
  | [], _ => .mark rfl rfl .nil
  | j :: js, h => by
    obtain ⟨hj, hjs⟩ := List.forall_mem_cons.1 h
    exact .mark rfl rfl
      ((lexes_compact hj).append (lexes_compactMoreItems hjs) (ends_compactMoreItems js))

theorem lexes_compactMembers : ∀ {ms : List (Literal × Json)},
    (∀ m ∈ ms, m.1.Whole) → (∀ m ∈ ms, m.2.Regular) → Lexes (compactMembers ms) (memberLexemes ms)
  | [], _, _ => .mark rfl rfl .nil
  | (l, j) :: ms, hl, h => by
    obtain ⟨hl, hls⟩ := List.forall_mem_cons.1 hl
    obtain ⟨hj, hjs⟩ := List.forall_mem_cons.1 h
    rw [compactMembers]
    simp only [List.cons_append, List.append_assoc]
    exact lexes_member [] hl nofun (lexes_compact hj) (lexes_compactMoreMembers hls hjs)
      (ends_compactMoreMembers ms)

theorem lexes_compactMoreMembers : ∀ {ms : List (Literal × Json)},
    (∀ m ∈ ms, m.1.Whole) → (∀ m ∈ ms, m.2.Regular) →
    Lexes (compactMoreMembers ms) (moreMemberLexemes ms)
  | [], _, _ => .mark rfl rfl .nil
  | (l, j) :: ms, hl, h => by
    obtain ⟨hl, hls⟩ := List.forall_mem_cons.1 hl
    obtain ⟨hj, hjs⟩ := List.forall_mem_cons.1 h
    rw [compactMoreMembers]
    simp only [List.cons_append, List.append_assoc]
    exact .mark rfl rfl (lexes_member [] hl nofun (lexes_compact hj)
      (lexes_compactMoreMembers hls hjs) (ends_compactMoreMembers ms))

end

theorem newLine_separators (level : Nat) : ∀ c ∈ newLine level, isSeparator c = true := by
  intro c hc
  rcases List.mem_cons.1 hc with rfl | hc
  · rfl
  · rw [List.eq_of_mem_replicate hc]
    rfl

theorem ends_newLine (level : Nat) (cs : List Char) : EndsNumeral (newLine level ++ cs) :=
  endsNumeral_cons (by decide) _

theorem ends_prettyMoreItems (level : Nat) (js : List Json) :
    EndsNumeral (prettyMoreItems level js) := by
  cases js with
  | nil => exact ends_newLine level _
  | cons j js => exact endsNumeral_mark (l := .comma) rfl _

theorem ends_prettyMoreMembers (level : Nat) (ms : List (Literal × Json)) :
    EndsNumeral (prettyMoreMembers level ms) := by
  cases ms with
  | nil => exact ends_newLine level _
  | cons m ms => exact endsNumeral_mark (l := .comma) rfl _

mutual

/-- The pretty text of a value is read as its lexemes, too. -/
theorem lexes_prettyAt (level : Nat) : ∀ {j : Json}, j.Regular → Lexes (prettyAt level j) (lexemes j)
  | .null, _ => .null
  | .bool true, _ => .bool true
  | .bool false, _ => .bool false
  | .number _, .number hn => .number hn
  | .string _, .string hl => .literal hl
  | .array [], _ => .mark rfl rfl (.mark rfl rfl .nil)
  | .array (j :: js), .array h => by
    obtain ⟨hj, hjs⟩ := List.forall_mem_cons.1 h
    rw [prettyAt]
    simp only [List.cons_append, List.append_assoc]
    exact .mark rfl rfl (.separators (newLine_separators _) ((lexes_prettyAt _ hj).append
      (lexes_prettyMoreItems level hjs) (ends_prettyMoreItems level js)))
  | .object [], _ => .mark rfl rfl (.mark rfl rfl .nil)
  | .object ((l, j) :: ms), .object hl h => by
    obtain ⟨hl, hls⟩ := List.forall_mem_cons.1 hl
    obtain ⟨hj, hjs⟩ := List.forall_mem_cons.1 h
    rw [prettyAt]
    simp only [List.cons_append, List.append_assoc]
    exact .mark rfl rfl (.separators (newLine_separators _) (lexes_member [' '] hl
      (List.forall_mem_singleton.2 rfl) (lexes_prettyAt _ hj) (lexes_prettyMoreMembers level hls hjs)
      (ends_prettyMoreMembers level ms)))

theorem lexes_prettyMoreItems (level : Nat) : ∀ {js : List Json}, (∀ j ∈ js, j.Regular) →
    Lexes (prettyMoreItems level js) (moreItemLexemes js)
  | [], _ => .separators (newLine_separators level) (.mark rfl rfl .nil)
  | j :: js, h => by
    obtain ⟨hj, hjs⟩ := List.forall_mem_cons.1 h
    rw [prettyMoreItems]
    simp only [List.cons_append, List.append_assoc]
    exact .mark rfl rfl (.separators (newLine_separators _) ((lexes_prettyAt _ hj).append
      (lexes_prettyMoreItems level hjs) (ends_prettyMoreItems level js)))

theorem lexes_prettyMoreMembers (level : Nat) : ∀ {ms : List (Literal × Json)},
    (∀ m ∈ ms, m.1.Whole) → (∀ m ∈ ms, m.2.Regular) →
    Lexes (prettyMoreMembers level ms) (moreMemberLexemes ms)
  | [], _, _ => .separators (newLine_separators level) (.mark rfl rfl .nil)
  | (l, j) :: ms, hl, h => by
    obtain ⟨hl, hls⟩ := List.forall_mem_cons.1 hl
    obtain ⟨hj, hjs⟩ := List.forall_mem_cons.1 h
    rw [prettyMoreMembers]
    simp only [List.cons_append, List.append_assoc]
    exact .mark rfl rfl (.separators (newLine_separators _) (lexes_member [' '] hl
      (List.forall_mem_singleton.2 rfl) (lexes_prettyAt _ hj) (lexes_prettyMoreMembers level hls hjs)
      (ends_prettyMoreMembers level ms)))

end

end Lexing

section Reading

/-- A value does not start with a closing mark. -/
theorem lexemes_head (j : Json) : ∃ l ls, lexemes j = l :: ls ∧ l ≠ .closeArray ∧ l ≠ .closeObject := by
  cases j with
  | _ => exact ⟨_, _, rfl, nofun, nofun⟩

variable {fuel : Nat} {ls rest : List Lexeme}

theorem readValue_openArray {js : List Json} (hls : ∀ r, ls ≠ .closeArray :: r)
    (h : readItems fuel ls = some (js, rest)) :
    readValue (fuel + 1) (.openArray :: ls) = some (.array js, rest) := by
  rw [readValue, h]
  exact hls

theorem readValue_openObject {ms : List (Literal × Json)} (hls : ∀ r, ls ≠ .closeObject :: r)
    (h : readMembers fuel ls = some (ms, rest)) :
    readValue (fuel + 1) (.openObject :: ls) = some (.object ms, rest) := by
  rw [readValue, h]
  exact hls

mutual

/-- The lexemes of a value are read as the value, with as much fuel as there are lexemes. -/
theorem readValue_lexemes : ∀ (j : Json) (fuel : Nat) (rest : List Lexeme),
    (lexemes j).length ≤ fuel → readValue fuel (lexemes j ++ rest) = some (j, rest)
  | j, 0, _, h => by
    obtain ⟨l, ls, hl, -⟩ := lexemes_head j
    rw [hl] at h
    cases h
  | .null, _ + 1, _, _ => rfl
  | .bool _, _ + 1, _, _ => rfl
  | .number _, _ + 1, _, _ => rfl
  | .string _, _ + 1, _, _ => rfl
  | .array [], _ + 1, _, _ => rfl
  | .array (j :: js), fuel + 1, rest, h => by
    refine readValue_openArray ?_ (readItems_lexemes (j :: js) fuel rest (List.cons_ne_nil j js)
      (Nat.le_of_succ_le_succ h))
    obtain ⟨l, ls, hl, harray, -⟩ := lexemes_head j
    intro r heq
    rw [itemLexemes, hl] at heq
    exact harray (List.cons.inj heq).1
  | .object [], _ + 1, _, _ => rfl
  | .object (m :: ms), fuel + 1, rest, h =>
    readValue_openObject nofun (readMembers_lexemes (m :: ms) fuel rest (List.cons_ne_nil m ms)
      (Nat.le_of_succ_le_succ h))

/-- Items after the bracket that opens their array. -/
theorem readItems_lexemes : ∀ (js : List Json) (fuel : Nat) (rest : List Lexeme), js ≠ [] →
    (itemLexemes js).length ≤ fuel → readItems fuel (itemLexemes js ++ rest) = some (js, rest)
  | [], _, _, hne, _ => absurd rfl hne
  | j :: js, 0, _, _, h => by
    obtain ⟨l, ls, hl, -⟩ := lexemes_head j
    rw [itemLexemes, hl] at h
    cases h
  | [j], fuel + 1, rest, _, h => by
    have hlength : (lexemes j).length ≤ fuel := by
      simp only [itemLexemes, moreItemLexemes, List.length_append, List.length_singleton] at h
      omega
    rw [itemLexemes, moreItemLexemes, List.append_assoc, List.singleton_append, readItems,
      readValue_lexemes j fuel _ hlength]
  | j :: k :: js, fuel + 1, rest, _, h => by
    have heq : itemLexemes (j :: k :: js) = lexemes j ++ .comma :: itemLexemes (k :: js) := by
      rw [itemLexemes, moreItemLexemes, itemLexemes]
    rw [heq, List.length_append, List.length_cons] at h
    have hitems := readItems_lexemes (k :: js) fuel rest (List.cons_ne_nil k js) (by omega)
    rw [heq, List.append_assoc, List.cons_append, readItems,
      readValue_lexemes j fuel _ (by omega)]
    simp only [hitems]

/-- Members after the brace that opens their object. -/
theorem readMembers_lexemes : ∀ (ms : List (Literal × Json)) (fuel : Nat) (rest : List Lexeme),
    ms ≠ [] → (memberLexemes ms).length ≤ fuel →
    readMembers fuel (memberLexemes ms ++ rest) = some (ms, rest)
  | [], _, _, hne, _ => absurd rfl hne
  | _ :: _, 0, _, _, h => nomatch h
  | [(l, j)], fuel + 1, rest, _, h => by
    have hlength : (lexemes j).length ≤ fuel := by
      simp only [memberLexemes, moreMemberLexemes, List.length_cons, List.length_append] at h
      omega
    have heq : memberLexemes [(l, j)] ++ rest =
        .string l :: .colon :: (lexemes j ++ .closeObject :: rest) := by
      simp only [memberLexemes, moreMemberLexemes, List.cons_append, List.append_assoc,
        List.nil_append]
    rw [heq, readMembers, readValue_lexemes j fuel _ hlength]
  | (l, j) :: m :: ms, fuel + 1, rest, _, h => by
    have heq : memberLexemes ((l, j) :: m :: ms) =
        .string l :: .colon :: (lexemes j ++ .comma :: memberLexemes (m :: ms)) := by
      simp only [memberLexemes, moreMemberLexemes]
    rw [heq, List.length_cons, List.length_cons, List.length_append, List.length_cons] at h
    have hmembers := readMembers_lexemes (m :: ms) fuel rest (List.cons_ne_nil m ms) (by omega)
    rw [heq, List.cons_append, List.cons_append, List.append_assoc, List.cons_append, readMembers,
      readValue_lexemes j fuel _ (by omega)]
    simp only [hmembers]

end

/-- A text with the lexemes of a value is read as the value. -/
theorem parse?_of_lexes {j : Json} {cs : List Char} (h : Lexes cs (lexemes j)) :
    parse? (String.ofList cs) = some j := by
  have hlex : lex cs = some (lexemes j) := by
    have := h [] endsNumeral_nil
    rwa [List.append_nil, lex, Option.map_some, List.append_nil] at this
  have hread := readValue_lexemes j (2 * (lexemes j).length + 2) [] (by omega)
  rw [List.append_nil] at hread
  rw [parse?, String.toList_ofList, hlex]
  simp only [hread]

/-- The compact text of a value is read back. -/
theorem parse?_text {j : Json} (h : j.Regular) : parse? j.text = some j :=
  parse?_of_lexes (lexes_compact h)

/-- The pretty text of a value is read back. -/
theorem parse?_pretty {j : Json} (h : j.Regular) : parse? j.pretty = some j :=
  parse?_of_lexes (lexes_prettyAt 0 h)

end Reading

end Json

end Kinetics
