import Kinetics.Formula.Expression

/-!
# Kinetics.Proofs.Formula.Siblings

The code of siblings. What is written between them and around them depends on their operators and
on which of them start and end a factor, so formulas that agree in this (`Fits`) are put together
in the same way. `fragments_row` is the code of a row in one equation: its children, joined or not,
are compiled each, and a call form puts its words around all but the first.
-/

namespace Kinetics

namespace Formula

namespace Node

variable {n m : Node} {ns ms : List Node} {before : Option Node} {f : Node → Node}

def operator? : Node → Option String
  | .operator s => some s
  | _ => none

theorem closesFactor_eq (n : Node) :
    n.closesFactor = n.operator?.all fun s => s == ")" || s == "]" := by
  cases n <;> rfl

theorem headKeyword?_cons (n : Node) (ns : List Node) :
    headKeyword? (n :: ns) = n.operator?.bind Keyword.ofOperator? := by
  cases n <;> rfl

theorem isOperator_eq (s : String) (n : Node) : n.isOperator s = n.operator?.any (· == s) := by
  cases n <;> rfl

theorem explicit_operator? (n : Node) : n.explicit.operator? = n.operator? := by
  cases n <;> simp [explicit, operator?]

theorem explicit_isUnknown (n : Node) : n.explicit.isUnknown = n.isUnknown := by
  cases n <;> simp [explicit, isUnknown]

theorem explicit_closesFactor (n : Node) : n.explicit.closesFactor = n.closesFactor := by
  rw [closesFactor_eq, closesFactor_eq, explicit_operator?]

theorem not_closesFactor_of_keyword {s : String} {k : Keyword}
    (h : Keyword.ofOperator? s = some k) : closesFactor (.operator s) = false := by
  have hround : Keyword.ofOperator? ")" = none := by decide +kernel
  have hsquare : Keyword.ofOperator? "]" = none := by decide +kernel
  rw [Bool.eq_false_iff]
  intro hc
  simp only [closesFactor, Bool.or_eq_true, beq_iff_eq] at hc
  rcases hc with rfl | rfl
  · cases hround.symm.trans h
  · cases hsquare.symm.trans h

/-- Siblings without the spaces between them. -/
def visible (ns : List Node) : List Node :=
  ns.filter fun n => !n.isSpace

theorem explicitAll_eq (ns : List Node) : explicitAll ns = (visible ns).map explicit := by
  induction ns with
  | nil => rfl
  | cons n ns ih =>
    rw [explicitAll, visible, List.filter_cons]
    cases n.isSpace with
    | true => simpa [visible] using ih
    | false => simpa [visible] using ih

theorem visible_map (hf : ∀ n ∈ ns, (f n).isSpace = n.isSpace) :
    visible (ns.map f) = (visible ns).map f := by
  induction ns with
  | nil => rfl
  | cons n ns ih =>
    have hrest := ih fun m hm => hf m (List.mem_cons_of_mem _ hm)
    simp only [visible] at hrest ⊢
    rw [List.map_cons, List.filter_cons, List.filter_cons, hf n (by simp), hrest]
    split <;> rfl

theorem headKeyword?_map (hf : ∀ n ∈ ns, (f n).operator? = n.operator?) :
    headKeyword? (ns.map f) = headKeyword? ns := by
  cases ns with
  | nil => rfl
  | cons n ns => rw [List.map_cons, headKeyword?_cons, headKeyword?_cons, hf n (by simp)]

section Join

/-- Siblings with signs of multiplication, where they are factors. -/
def joinIf (joins : Bool) (before : Option Node) (ns : List Node) : List Node :=
  if joins then joinAfter before ns else ns

theorem joinAfter_congr {b b' : Option Node} (h : b.any closesFactor = b'.any closesFactor)
    (ns : List Node) : joinAfter b ns = joinAfter b' ns := by
  induction ns generalizing b b' with
  | nil => rfl
  | cons n ns ih =>
    have hrest : joinAfter (if n.isUnknown then b else some n) ns =
        joinAfter (if n.isUnknown then b' else some n) ns := by
      split
      · exact ih h
      · rfl
    rw [joinAfter, joinAfter, h, hrest]

theorem joinIf_congr {joins : Bool} {b b' : Option Node}
    (h : b.any closesFactor = b'.any closesFactor) (ns : List Node) :
    joinIf joins b ns = joinIf joins b' ns := by
  rw [joinIf, joinIf, joinAfter_congr h]

/-- The last of the siblings that is not unknown. -/
def after (before : Option Node) (n : Node) : Option Node :=
  if n.isUnknown then before else some n

theorem joinIf_cons (joins : Bool) (before : Option Node) (n : Node) (ns : List Node) :
    joinIf joins before (n :: ns) =
      (if joins && before.any closesFactor && n.opensFactor then [Node.operator "*"] else []) ++
        n :: joinIf joins (after before n) ns := by
  cases joins with
  | false => rfl
  | true =>
    simp only [joinIf, if_true, joinAfter, Bool.true_and]
    split <;> rfl

/-- Whether the children of a row with the given keyword are factors. -/
def joinsRow : Option Keyword → Bool
  | none => true
  | some .sum => true
  | some .product => true
  | some _ => false

theorem joinRow_eq (ns : List Node) (h : joinsRow (headKeyword? ms) = true →
    ∀ k, headKeyword? ms = some k → headKeyword? ns = some k) :
    joinRow (headKeyword? ms) ns = joinIf (joinsRow (headKeyword? ms)) none ns := by
  have hcall (k : Keyword) (hk : headKeyword? ns = some k) :
      ∃ n rest, ns = n :: rest ∧ joinIf true none ns = n :: joinFactors rest := by
    cases ns with
    | nil => cases hk
    | cons n rest =>
      refine ⟨n, rest, rfl, ?_⟩
      have hclose : (after none n).any closesFactor = (none : Option Node).any closesFactor := by
        rw [headKeyword?_cons] at hk
        obtain ⟨s, hs, hk⟩ := Option.bind_eq_some_iff.1 hk
        have hn : n.closesFactor = false := by
          rw [closesFactor_eq, hs]
          simpa [closesFactor] using not_closesFactor_of_keyword hk
        rw [after]
        split <;> simp [hn]
      rw [joinIf_cons, joinIf_congr hclose]
      rfl
  cases hm : headKeyword? ms with
  | none => rfl
  | some k =>
    cases k with
    | sum =>
      obtain ⟨n, rest, rfl, hj⟩ := hcall .sum (h (by simp [hm, joinsRow]) _ hm)
      exact hj.symm
    | product =>
      obtain ⟨n, rest, rfl, hj⟩ := hcall .product (h (by simp [hm, joinsRow]) _ hm)
      exact hj.symm
    | _ => rfl

theorem headKeyword?_joinIf (joins : Bool) (ns : List Node) :
    headKeyword? (joinIf joins none ns) = headKeyword? ns := by
  cases ns with
  | nil => cases joins <;> rfl
  | cons n ns => rw [joinIf_cons]; simp [headKeyword?_cons]

end Join

section Row

variable {suffix : String}

/-- What a call form writes in front of its arguments. -/
def Keyword.opening : Keyword → String
  | .index => "["
  | .len => "len("
  | .exp => "np.exp("
  | .sum => "np.sum("
  | .product => "np.prod("
  | .max => "np.maximum("
  | .matmul => "np.matmul("

def Keyword.closing : Keyword → List String
  | .index => []
  | _ => [")"]

/-- Whether commas stand between the arguments. -/
def Keyword.separates : Keyword → Bool
  | .max => true
  | .matmul => true
  | _ => false

theorem callCode_eq (k : Keyword) (arguments : List (List Fragment)) :
    callCode k arguments = .text (Keyword.opening k) ::
      ((if Keyword.separates k then arguments.intersperse [.text ","] else arguments).flatten ++
        (Keyword.closing k).map .text) := by
  cases k <;> simp [callCode, Keyword.opening, Keyword.closing, Keyword.separates]

/-- The code of a row from its children as they are joined. -/
def rowCode (suffix : String) (keyword : Option Keyword) (children : List Node) :
    Except Fault (List Fragment) :=
  match keyword with
  | none => (fragmentsEach suffix children).map List.flatten
  | some k =>
    match checkArguments k children.tail with
    | .error e => .error e
    | .ok _ => (fragmentsEach suffix children).map fun parts => callCode k parts.tail

theorem fragments_row_eq (ns : List Node) :
    fragments suffix (.row ns) = rowCode suffix (headKeyword? ns) ns := by
  rw [fragments]
  unfold rowCode
  cases headKeyword? ns with
  | none => cases fragmentsEach suffix ns <;> rfl
  | some k =>
    simp only
    cases checkArguments k ns.tail with
    | error e => rfl
    | ok _ => cases fragmentsEach suffix ns <;> rfl

theorem headKeyword?_explicitAll_eq (ns : List Node) :
    headKeyword? (explicitAll ns) = headKeyword? (visible ns) := by
  rw [explicitAll_eq, headKeyword?_map fun n _ => explicit_operator? n]

theorem headKeyword?_visible {k : Keyword} (h : headKeyword? ns = some k) :
    headKeyword? (visible ns) = some k := by
  cases ns with
  | nil => cases h
  | cons n ns =>
    cases n with
    | operator s => exact h
    | _ => cases h

/-- The joined children of a row. -/
def joined (ns : List Node) : List Node :=
  joinIf (joinsRow (headKeyword? ns)) none (explicitAll ns)

theorem explicit_row_eq (ns : List Node) : explicit (.row ns) = .row (joined ns) := by
  rw [explicit, joined, ← joinRow_eq]
  intro _ k hk
  rw [headKeyword?_explicitAll_eq, headKeyword?_visible hk]

theorem fragments_row (ns : List Node) : fragments suffix (explicit (.row ns)) =
    rowCode suffix (headKeyword? (visible ns)) (joined ns) := by
  have hhead : headKeyword? (joined ns) = headKeyword? (visible ns) := by
    rw [joined, headKeyword?_joinIf, headKeyword?_explicitAll_eq]
  rw [explicit_row_eq, fragments_row_eq, hhead]

theorem opensFactor_row (ns : List Node) : opensFactor (explicit (.row ns)) =
    (headKeyword? (visible ns) != some .index) := by
  rw [explicit_row_eq, opensFactor, joined, headKeyword?_joinIf, headKeyword?_explicitAll_eq]

theorem fragmentsEach_cons_iff {parts : List (List Fragment)} :
    fragmentsEach suffix (n :: ns) = .ok parts ↔ ∃ fs rest, fragments suffix n = .ok fs ∧
      fragmentsEach suffix ns = .ok rest ∧ parts = fs :: rest := by
  rw [fragmentsEach]
  cases fragments suffix n with
  | error e => simp
  | ok fs =>
    cases fragmentsEach suffix ns with
    | error e => simp
    | ok rest => simp [eq_comm]

theorem fragments_star : fragments suffix (.operator "*") = .ok [.text "*"] := by
  have h : operatorCode "*" = "*" := by decide +kernel
  simp [fragments, h]

/-- A formula in parentheses. -/
theorem explicit_grouped (h : n.isSpace = false) :
    (Node.fenced "(" ")" [n]).explicit = .fenced "(" ")" [n.explicit] := by
  simp [explicit, explicitAll, h]

theorem fragments_grouped (n : Node) : fragments suffix (.fenced "(" ")" [n]) =
    (fragments suffix n).map parenthesized := by
  rw [fragments, fragmentsEach, fragmentsEach]
  cases fragments suffix n with
  | error e => rfl
  | ok fs => simp [parenthesized, Except.map]

end Row

section Fits

/-- A formula that stands among siblings like another. -/
structure Fits (m n : Node) : Prop where
  operator : m.operator? = n.operator?
  space : m.isSpace = n.isSpace
  unknown : m.isUnknown = n.isUnknown
  opens : m.explicit.opensFactor = n.explicit.opensFactor

theorem Fits.refl (n : Node) : Fits n n :=
  ⟨rfl, rfl, rfl, rfl⟩

theorem Fits.closes (h : Fits m n) : m.closesFactor = n.closesFactor := by
  rw [closesFactor_eq, closesFactor_eq, h.operator]

end Fits

end Node

end Formula

end Kinetics
