import Kinetics.Proofs.Formula.Joined
import Kinetics.Proofs.Formula.Seams

/-!
# Kinetics.Proofs.Formula.Bare

Formulas without spaces and unknown elements. Neither has code, and neither keeps two factors
apart, but both count where children are counted or looked at one by one: a call form is told by
its first child, the arguments of some are counted, commas stand between all the children of a
fence, and a star marks a symbol only alone. `keepsCode` says that none of this changes when they
go, and then nothing does (`compile_bare`).
-/

namespace Kinetics

namespace Formula

namespace Node

variable {suffix : String} {n : Node} {ns rest : List Node} {k : Keyword} {joins : Bool}

section Bare

mutual

/-- A formula without the spaces and unknown elements among children, at any depth. -/
def bare : Node → Node
  | .row children => .row (bareAll children)
  | .fenced opener closer children => .fenced opener closer (bareAll children)
  | .root children => .root (bareAll children)
  | .fraction a b => .fraction (bare a) (bare b)
  | .sub a b => .sub (bare a) (bare b)
  | .sup a b => .sup (bare a) (bare b)
  | .identifier s => .identifier s
  | .number s => .number s
  | .operator s => .operator s
  | .space s => .space s
  | .text s => .text s
  | .unknown s => .unknown s

def bareAll : List Node → List Node
  | [] => []
  | n :: ns => if n.isSpace || n.isUnknown then bareAll ns else bare n :: bareAll ns

end

theorem bareAll_eq (ns : List Node) : bareAll ns = (essential ns).map bare := by
  induction ns with
  | nil => rfl
  | cons n ns ih =>
    rw [bareAll, ih, essential, essential, List.filter_cons]
    cases n.isSpace <;> cases n.isUnknown <;> rfl

theorem bare_operator? (n : Node) : n.bare.operator? = n.operator? := by
  cases n <;> simp [bare, operator?]

theorem bare_isSpace (n : Node) : n.bare.isSpace = n.isSpace := by
  cases n <;> simp [bare, isSpace]

theorem bare_isUnknown (n : Node) : n.bare.isUnknown = n.isUnknown := by
  cases n <;> simp [bare, isUnknown]

theorem visible_bareAll (ns : List Node) : visible (bareAll ns) = bareAll ns := by
  rw [bareAll_eq, visible, List.filter_eq_self]
  intro n hn
  obtain ⟨m, hm, rfl⟩ := List.mem_map.1 hn
  have he := (List.mem_filter.1 hm).2
  simp only [Bool.and_eq_true] at he
  rw [bare_isSpace]
  exact he.1

theorem headKeyword?_bareAll (ns : List Node) :
    headKeyword? (bareAll ns) = headKeyword? (essential ns) := by
  rw [bareAll_eq, headKeyword?_map fun n _ => bare_operator? n]

end Bare

section Keeps

mutual

/-- Whether what marks a symbol in the name of the formula marks it without spaces and unknown
elements too. -/
def keepsName : Node → Bool
  | .row children => keepsNames children
  | .fenced _ _ children => keepsNames children
  | .root children => keepsNames children
  | .fraction a b => keepsName a && keepsName b
  | .sub a b => keepsName a && keepsName b
  | .sup a b => isAsterisk b.bare == isAsterisk b && (keepsName a && keepsName b)
  | _ => true

def keepsNames : List Node → Bool
  | [] => true
  | n :: ns => keepsName n && keepsNames ns

end

/-- Whether siblings make the same call form, or none, without spaces and unknown elements: the
keyword is not hidden behind an unknown element, signs of multiplication are put between the
children if they are in the call form or there are none to be put, and the arguments are as good. -/
def keepsForm (ns : List Node) : Bool :=
  match headKeyword? (essential ns) with
  | none => true
  | some k =>
    headKeyword? (visible ns) == some k &&
      (joinsRow (headKeyword? ns) == joinsRow (some k) ||
        (joinFactors (explicitAll ns)).length == (visible ns).length) &&
      decide (checkArguments k (visible ns).tail = checkArguments k (essential ns).tail)

/-- Whether as many commas stand between siblings without spaces and unknown elements. -/
def keepsCommas (ns : List Node) : Bool :=
  (essential ns).length == (visible ns).length || (visible ns).length == 1

mutual

/-- Whether what tells the code of a formula stays the same without spaces and unknown elements. -/
def keepsCode : Node → Bool
  | .row children => keepsForm children && keepsCodes children
  | .fenced _ _ children => keepsCommas children && keepsCodes children
  | .root children => keepsCodes children
  | .fraction a b => keepsCode a && keepsCode b
  | .sub a b => keepsName a && keepsName b
  | .sup a b => b.bare.explicit.isAsterisk == b.explicit.isAsterisk && (keepsCode a && keepsCode b)
  | _ => true

def keepsCodes : List Node → Bool
  | [] => true
  | n :: ns => keepsCode n && keepsCodes ns

end

end Keeps

section Names

theorem isSpace_or_isUnknown (h : (n.isSpace || n.isUnknown) = true) : compoundName n = "" := by
  cases n with
  | space s => rfl
  | unknown s => rfl
  | _ => cases h

mutual

theorem compoundName_bare : ∀ n : Node, n.keepsName = true → compoundName n.bare = compoundName n
  | .row ns, h => by
    rw [bare, compoundName, compoundName, compoundNames_bare ns h]
  | .fenced _ _ ns, h => by
    rw [bare, compoundName, compoundName, compoundNames_bare ns h]
  | .root ns, h => by
    rw [bare, compoundName, compoundName, compoundNames_bare ns h]
  | .fraction a b, h => by
    simp only [keepsName, Bool.and_eq_true] at h
    rw [bare, compoundName, compoundName, compoundName_bare a h.1, compoundName_bare b h.2]
  | .sub a b, h => by
    simp only [keepsName, Bool.and_eq_true] at h
    rw [bare, compoundName, compoundName, compoundName_bare a h.1, compoundName_bare b h.2]
  | .sup a b, h => by
    simp only [keepsName, Bool.and_eq_true, beq_iff_eq] at h
    rw [bare, compoundName, compoundName, h.1, compoundName_bare a h.2.1,
      compoundName_bare b h.2.2]
  | .identifier _, _ => rfl
  | .number _, _ => rfl
  | .operator _, _ => rfl
  | .space _, _ => rfl
  | .text _, _ => rfl
  | .unknown _, _ => rfl

theorem compoundNames_bare : ∀ ns : List Node, keepsNames ns = true →
    compoundNames (bareAll ns) = compoundNames ns
  | [], _ => rfl
  | n :: ns, h => by
    simp only [keepsNames, Bool.and_eq_true] at h
    rw [bareAll, compoundNames]
    split
    · rename_i hn
      rw [compoundNames_bare ns h.2, isSpace_or_isUnknown hn, String.empty_append]
    · rw [compoundNames, compoundName_bare n h.1, compoundNames_bare ns h.2]

end

end Names

section Siblings

/-- What of a formula with its signs of multiplication written is told from its siblings. -/
structure Bares (suffix : String) (n : Node) : Prop where
  opens : n.bare.explicit.opensFactor = n.explicit.opensFactor
  name : compoundName n.bare.explicit = compoundName n.explicit
  code : fragments suffix n.bare.explicit = fragments suffix n.explicit

theorem closesFactor_bare (n : Node) :
    n.bare.explicit.closesFactor = n.explicit.closesFactor := by
  rw [explicit_closesFactor, explicit_closesFactor, closesFactor_eq, closesFactor_eq,
    bare_operator?]

/-- What is put together from joined siblings one after the other, and to which an unknown element
adds nothing, is the same without spaces and unknown elements. -/
theorem joined_bareAll {α β : Type} {f : Node → α} {put : α → β → β} {F : List Node → β}
    (hF : ∀ n ns, F (n :: ns) = put (f n) (F ns)) (hput : ∀ s b, put (f (.unknown s)) b = b)
    (h : ∀ n ∈ ns, n.bare.explicit.opensFactor = n.explicit.opensFactor ∧
      f n.bare.explicit = f n.explicit) {b b' : Option Node}
    (hb : b.any closesFactor = b'.any closesFactor) :
    F (joinIf joins b (explicitAll (bareAll ns))) = F (joinIf joins b' (explicitAll ns)) := by
  have hstar (c : Bool) {l r : List Node} (hlr : F l = F r) :
      F ((if c then [Node.operator "*"] else []) ++ l) =
        F ((if c then [Node.operator "*"] else []) ++ r) := by
    cases c with
    | true => simp [hF, hlr]
    | false => exact hlr
  induction ns generalizing b b' with
  | nil => cases joins <;> rfl
  | cons n ns ih =>
    obtain ⟨⟨hopens, hn⟩, hns⟩ := List.forall_mem_cons.1 h
    rw [bareAll, explicitAll]
    cases hs : n.isSpace with
    | true => simpa using ih hns hb
    | false =>
      cases hu : n.isUnknown with
      | true =>
        -- an unknown element leaves the factor before it in its place
        cases n with
        | unknown s =>
          have hskip : joinIf joins b' ((Node.unknown s).explicit :: explicitAll ns) =
              .unknown s :: joinIf joins b' (explicitAll ns) := by
            rw [explicit, joinIf_cons]
            simp [opensFactor, Node.after, isUnknown]
          rw [Bool.false_or, if_pos rfl, if_neg Bool.false_ne_true, hskip, hF, hput]
          exact ih hns hb
        | _ => cases hu
      | false =>
        have hspace : n.bare.isSpace = false := by rw [bare_isSpace, hs]
        have hunknown : n.bare.isUnknown = false := by rw [bare_isUnknown, hu]
        have hclose : (some n.bare.explicit).any closesFactor =
            (some n.explicit).any closesFactor := closesFactor_bare n
        rw [Bool.or_self, if_neg Bool.false_ne_true, if_neg Bool.false_ne_true, explicitAll, hspace,
          if_neg Bool.false_ne_true, joinIf_cons, joinIf_cons, Node.after, Node.after,
          explicit_isUnknown, explicit_isUnknown, hu, hunknown, hopens, hb]
        refine hstar _ ?_
        rw [hF, hF, hn]
        exact congrArg _ (ih hns hclose)

/-- Joined siblings without spaces and unknown elements have the same code. -/
theorem rowCode_bareAll (h : ∀ n ∈ ns, Bares suffix n) :
    rowCode suffix none (joinIf joins none (explicitAll (bareAll ns))) =
      rowCode suffix none (joinIf joins none (explicitAll ns)) := by
  refine joined_bareAll (fun n ns => rowCode_cons n ns) (fun s r => ?_)
    (fun n hn => ⟨(h n hn).opens, (h n hn).code⟩) rfl
  rw [fragments, followed_nil]

theorem names_bareAll (h : ∀ n ∈ ns, Bares suffix n) :
    compoundNames (joinIf joins none (explicitAll (bareAll ns))) =
      compoundNames (joinIf joins none (explicitAll ns)) := by
  refine @joined_bareAll _ _ _ _ compoundName (fun s t => s ++ t) _ (fun n ns => ?_)
    (fun s r => ?_) (fun n hn => ⟨(h n hn).opens, (h n hn).name⟩) _ _ rfl
  · rw [compoundNames]
  · rw [compoundName, String.empty_append]

end Siblings

section Rows

/-- Where a keyword stands first but for spaces. -/
theorem exists_keyword (h : headKeyword? (visible ns) = some k) : ∃ s rest,
    visible ns = .operator s :: visible rest ∧ essential ns = .operator s :: essential rest ∧
      explicitAll ns = .operator s :: explicitAll rest ∧
      bareAll ns = .operator s :: bareAll rest ∧ ∀ n ∈ rest, n ∈ ns := by
  induction ns with
  | nil => cases h
  | cons n ns ih =>
    cases n with
    | operator s =>
      refine ⟨s, ns, rfl, rfl, ?_, ?_, fun m hm => List.mem_cons_of_mem _ hm⟩
      · simp [explicitAll, explicit, isSpace]
      · simp [bareAll, bare, isSpace, isUnknown]
    | space w =>
      obtain ⟨s, rest, hv, he, hx, hb, hmem⟩ := ih h
      refine ⟨s, rest, hv, he, ?_, ?_, fun m hm => List.mem_cons_of_mem _ (hmem m hm)⟩
      · simpa [explicitAll, isSpace] using hx
      · simpa [bareAll, isSpace] using hb
    | _ => cases h

/-- The keyword of a call form stands first among what is neither space nor unknown. -/
theorem headKeyword?_essential (h : headKeyword? (visible ns) = some k) :
    headKeyword? (essential ns) = some k := by
  obtain ⟨s, rest, hv, he, -⟩ := exists_keyword h
  rw [hv, headKeyword?_cons] at h
  rw [he, headKeyword?_cons, h]

theorem essential_visible (ns : List Node) :
    essential ns = (visible ns).filter fun n => !n.isUnknown := by
  rw [essential, visible, List.filter_filter]
  congr 1
  funext n
  rw [Bool.and_comm]

/-- Siblings of which none is unknown. -/
theorem visible_essential (h : (essential ns).length = (visible ns).length) :
    visible ns = essential ns := by
  rw [essential_visible] at h ⊢
  exact (List.filter_sublist.eq_of_length h).symm

theorem fragmentsEach_bareAll (h : ∀ n ∈ ns, Bares suffix n)
    (hlength : (essential ns).length = (visible ns).length) :
    fragmentsEach suffix (explicitAll (bareAll ns)) = fragmentsEach suffix (explicitAll ns) := by
  have hcodes (ms : List Node) (hms : ∀ n ∈ ms, Bares suffix n) :
      fragmentsEach suffix ((ms.map bare).map explicit) =
        fragmentsEach suffix (ms.map explicit) := by
    induction ms with
    | nil => rfl
    | cons m ms ih =>
      obtain ⟨hm, hms⟩ := List.forall_mem_cons.1 hms
      simp only [List.map_cons, fragmentsEach, hm.code, ih hms]
  rw [explicitAll_eq, explicitAll_eq, visible_bareAll, bareAll_eq, visible_essential hlength]
  exact hcodes _ fun n hn => h n (List.mem_filter.1 hn).1

theorem keepsForm_head (hf : keepsForm ns = true) :
    headKeyword? (visible ns) = headKeyword? (essential ns) := by
  cases he : headKeyword? (essential ns) with
  | none =>
    cases hv : headKeyword? (visible ns) with
    | none => rfl
    | some k => cases (headKeyword?_essential hv).symm.trans he
  | some k =>
    simp only [keepsForm, he, Bool.and_eq_true, beq_iff_eq] at hf
    exact hf.1.1

/-- The signs of multiplication of the row are those of its call form. -/
theorem keepsForm_joined (hf : keepsForm ns = true) :
    joined ns = joinIf (joinsRow (headKeyword? (essential ns))) none (explicitAll ns) := by
  have hhead := keepsForm_head hf
  cases he : headKeyword? (essential ns) with
  | none =>
    rw [he] at hhead
    rw [joined, headKeyword?_of_visible hhead]
  | some k =>
    simp only [keepsForm, he, Bool.and_eq_true, Bool.or_eq_true, beq_iff_eq] at hf
    rcases hf.1.2 with hjoins | hlength
    · rw [joined, hjoins]
    · have hnone : joinIf true none (explicitAll ns) = explicitAll ns := by
        refine ((sublist_joinIf true none _).eq_of_length ?_).symm
        rw [explicitAll_eq, List.length_map, ← explicitAll_eq]
        exact hlength.symm
      have hany (joins : Bool) : joinIf joins none (explicitAll ns) = explicitAll ns := by
        cases joins with
        | false => rfl
        | true => exact hnone
      rw [joined, hany, hany]

theorem rowCode_call {s : String} (hk : headKeyword? [.operator s] = some k) (ms : List Node) :
    rowCode suffix (some k) (joinIf joins none (.operator s :: ms)) =
      match checkArguments k (joinIf joins none ms) with
      | .error e => .error e
      | .ok _ => (fragmentsEach suffix (joinIf joins none ms)).map (callCode k) := by
  have hhead : headKeyword? (.operator s :: ms) = some k := hk
  have hcode : ∃ fs, fragments suffix (.operator s) = .ok fs := by
    rw [fragments]
    split <;> exact ⟨_, rfl⟩
  obtain ⟨fs, hfs⟩ := hcode
  rw [joinIf_head hhead, rowCode]
  simp only [List.take_one, List.head?_cons, Option.toList_some, List.singleton_append,
    List.tail_cons, fragmentsEach, hfs]
  cases checkArguments k (joinIf joins none ms) with
  | error e => rfl
  | ok _ => cases fragmentsEach suffix (joinIf joins none ms) <;> rfl

/-- Without commas a call depends on its arguments as a row of them does. -/
theorem callCode_row (hk : Keyword.separates k = false) (ms : List Node) :
    (fragmentsEach suffix ms).map (callCode k) = (rowCode suffix none ms).map fun fs =>
      .text (Keyword.opening k) :: (fs ++ (Keyword.closing k).map .text) := by
  rw [rowCode]
  cases fragmentsEach suffix ms with
  | error e => rfl
  | ok parts => simp [Except.map, callCode_eq, hk]

/-- A call form with commas has its two arguments, if it is one. -/
theorem length_of_checkArguments (hk : Keyword.separates k = true)
    (h : checkArguments k ns = .ok ()) : ns.length = 2 := by
  cases k with
  | max =>
    rw [checkArguments, checkArguments.count] at h
    by_contra hl
    rw [if_neg hl] at h
    cases h
  | matmul =>
    rw [checkArguments, checkArguments.count] at h
    by_contra hl
    rw [if_neg hl] at h
    cases h
  | _ => cases hk

theorem rowCode_bare (hf : keepsForm ns = true) (h : ∀ n ∈ ns, Bares suffix n) :
    fragments suffix (explicit (.row (bareAll ns))) = fragments suffix (explicit (.row ns)) := by
  rw [fragments_row, fragments_row, visible_bareAll, headKeyword?_bareAll, keepsForm_head hf,
    keepsForm_joined hf, joined, headKeyword?_bareAll]
  have hhead := keepsForm_head hf
  cases he : headKeyword? (essential ns) with
  | none => exact rowCode_bareAll h
  | some k =>
    obtain ⟨s, rest, hv, hes, hx, hb, hmem⟩ := exists_keyword (hhead.trans he)
    have hrest : ∀ n ∈ rest, Bares suffix n := fun n hn => h n (hmem n hn)
    have hk : headKeyword? [.operator s] = some k := by
      rw [hes] at he
      exact he
    have hxb : explicitAll (bareAll ns) = .operator s :: explicitAll (bareAll rest) := by
      simp [hb, explicitAll, explicit, isSpace]
    have hcheck : checkArguments k (visible rest) = checkArguments k (essential rest) := by
      simp only [keepsForm, he, Bool.and_eq_true, decide_eq_true_eq] at hf
      have htail := hf.2
      rwa [hv, hes, List.tail_cons, List.tail_cons] at htail
    have hargs : checkArguments k (explicitAll rest) = checkArguments k (visible rest) := by
      rw [explicitAll_eq, checkArguments_map fun n _ => explicit_operator? n]
    have hbare : checkArguments k (explicitAll (bareAll rest)) =
        checkArguments k (essential rest) := by
      rw [explicitAll_eq, checkArguments_map fun n _ => explicit_operator? n, visible_bareAll,
        bareAll_eq, checkArguments_map fun n _ => bare_operator? n]
    rw [hx, hxb, rowCode_call hk, rowCode_call hk, checkArguments_joinIf, checkArguments_joinIf,
      hargs, hbare, hcheck]
    cases hc : checkArguments k (essential rest) with
    | error e => rfl
    | ok _ =>
      cases hsep : Keyword.separates k with
      | false => simp only [callCode_row hsep, rowCode_bareAll hrest]
      | true =>
        have hjoins : joinsRow (some k) = false := by
          cases k <;> first | rfl | cases hsep
        have hlength : (essential rest).length = (visible rest).length := by
          rw [length_of_checkArguments hsep hc, length_of_checkArguments hsep (hcheck.trans hc)]
        simp only [hjoins, joinIf, Bool.false_eq_true, if_false,
          fragmentsEach_bareAll hrest hlength]

end Rows

section Tree

theorem bares_row (hf : keepsForm ns = true) (h : ∀ n ∈ ns, Bares suffix n) :
    Bares suffix (.row ns) := by
  refine ⟨?_, ?_, ?_⟩
  · rw [bare, opensFactor_row, opensFactor_row, visible_bareAll, headKeyword?_bareAll,
      keepsForm_head hf]
  · rw [bare, explicit_row_eq, explicit_row_eq, compoundName, compoundName, keepsForm_joined hf,
      joined, headKeyword?_bareAll, names_bareAll h]
  · rw [bare, rowCode_bare hf h]

theorem bares_fenced (opener closer : String) (hc : keepsCommas ns = true)
    (h : ∀ n ∈ ns, Bares suffix n) : Bares suffix (.fenced opener closer ns) := by
  have hname := @names_bareAll suffix ns false h
  have hcode : ((fragmentsEach suffix (explicitAll (bareAll ns))).map fun parts =>
      (parts.intersperse [.text ","]).flatten) =
        (fragmentsEach suffix (explicitAll ns)).map fun parts =>
          (parts.intersperse [.text ","]).flatten := by
    simp only [keepsCommas, Bool.or_eq_true, beq_iff_eq] at hc
    by_cases hlength : (essential ns).length = (visible ns).length
    · rw [fragmentsEach_bareAll h hlength]
    · -- one unknown element alone
      have hone := hc.resolve_left hlength
      obtain ⟨n, hn⟩ := List.length_eq_one_iff.1 hone
      rw [essential_visible, hn] at hlength
      cases n with
      | unknown s =>
        rw [bareAll_eq, essential_visible, explicitAll_eq ns, hn]
        rfl
      | _ => exact absurd rfl hlength
  refine ⟨rfl, ?_, ?_⟩
  · rw [bare, explicit, explicit, compoundName, compoundName]
    exact hname
  · rw [bare, explicit, explicit, fragments, fragments]
    generalize fragmentsEach suffix (explicitAll (bareAll ns)) = r at hcode
    generalize fragmentsEach suffix (explicitAll ns) = r' at hcode
    cases r <;> cases r' <;> simp_all [Except.map]

theorem bares_root (h : ∀ n ∈ ns, Bares suffix n) : Bares suffix (.root ns) := by
  have hname := @names_bareAll suffix ns false h
  have hcode := @rowCode_bareAll suffix ns false h
  refine ⟨rfl, ?_, ?_⟩
  · rw [bare, explicit, explicit, compoundName, compoundName]
    exact hname
  · simp only [joinIf, Bool.false_eq_true, if_false, rowCode] at hcode
    rw [bare, explicit, explicit, fragments, fragments]
    generalize fragmentsEach suffix (explicitAll (bareAll ns)) = r at hcode
    generalize fragmentsEach suffix (explicitAll ns) = r' at hcode
    cases r <;> cases r' <;> simp_all [Except.map]

theorem bares_self (hb : n.bare = n) : Bares suffix n := by
  refine ⟨?_, ?_, ?_⟩ <;> rw [hb]

mutual

theorem bares_of_keepsCode : ∀ n : Node, n.keepsCode = true → Bares suffix n
  | .row ns, h => by
    simp only [keepsCode, Bool.and_eq_true] at h
    exact bares_row h.1 (bares_of_keepsCodes ns h.2)
  | .fenced opener closer ns, h => by
    simp only [keepsCode, Bool.and_eq_true] at h
    exact bares_fenced opener closer h.1 (bares_of_keepsCodes ns h.2)
  | .root ns, h => bares_root (bares_of_keepsCodes ns h)
  | .fraction a b, h => by
    simp only [keepsCode, Bool.and_eq_true] at h
    have ha := bares_of_keepsCode a h.1
    have hb := bares_of_keepsCode b h.2
    refine ⟨rfl, ?_, ?_⟩
    · rw [bare, explicit, explicit, compoundName, compoundName, ha.name, hb.name]
    · rw [bare, explicit, explicit, fragments, fragments, ha.code, hb.code]
  | .sub a b, h => by
    have hname := compoundName_bare (.sub a b) h
    refine ⟨rfl, hname, ?_⟩
    rw [bare] at hname
    rw [bare, explicit, explicit, fragments, fragments, hname]
  | .sup a b, h => by
    simp only [keepsCode, Bool.and_eq_true, beq_iff_eq] at h
    have ha := bares_of_keepsCode a h.2.1
    have hb := bares_of_keepsCode b h.2.2
    refine ⟨rfl, ?_, ?_⟩
    · rw [bare, explicit, explicit, compoundName, compoundName, ha.name, hb.name, h.1]
    · rw [bare, explicit, explicit, fragments, fragments, compoundName, compoundName, ha.name,
        hb.name, ha.code, hb.code, h.1]
  | .identifier _, _ => bares_self rfl
  | .number _, _ => bares_self rfl
  | .operator _, _ => bares_self rfl
  | .space _, _ => bares_self rfl
  | .text _, _ => bares_self rfl
  | .unknown _, _ => bares_self rfl

theorem bares_of_keepsCodes : ∀ ns : List Node, keepsCodes ns = true → ∀ n ∈ ns, Bares suffix n
  | [], _ => List.forall_mem_nil _
  | n :: ns, h => by
    simp only [keepsCodes, Bool.and_eq_true] at h
    exact List.forall_mem_cons.2 ⟨bares_of_keepsCode n h.1, bares_of_keepsCodes ns h.2⟩

end

/-- Where spaces and unknown elements hide no keyword, are no argument of a call, put no comma
between others and keep no star company, a formula without them compiles to the same code with the
same symbols, or fails in the same way. -/
theorem compile_bare (h : n.keepsCode = true) :
    (n.bare.compile suffix).map Expression.fragments =
      (n.compile suffix).map Expression.fragments := by
  have hcode := (@bares_of_keepsCode suffix n h).code
  rw [compile, compile, hcode]
  cases fragments suffix n.explicit <;> rfl

/-- A sum with spaces and unknown elements in it, also in a subscript and beside an exponent. -/
theorem compile_bare_sum : ∃ n : Node, n = .row [.space "1em", .operator "∑", .unknown "maction",
      .fenced "(" ")" [.identifier "a", .space "1em"], .unknown "maction",
      .sup (.identifier "b") (.row [.space "1em", .operator "*"]),
      .sub (.identifier "k") (.row [.identifier "i", .unknown "maction"])] ∧
    n.keepsCode = true ∧ (∃ e, n.bare.compile "" = .ok e ∧ e.code = "np.sum(a * b_star * k_i)") ∧
    (n.bare.compile "").map Expression.fragments =
      (n.compile "").map Expression.fragments := by
  refine ⟨_, rfl, by decide +kernel, ⟨⟨[.text "np.sum(", .text "(", .symbol "a" "", .text ")",
    .text "*", .symbol "b_star" "", .text "*", .symbol "k_i" "", .text ")"], []⟩, ?_, ?_⟩,
    compile_bare (by decide +kernel)⟩ <;> decide +kernel

/-- Behind a space the keyword is seen too late: the sign that is put between the arguments is
counted as one. -/
example : (Node.row [.space "1em", .operator "max", .identifier "a", .identifier "b"]).compile "" =
      .error (.argumentCount "max" 2 3) ∧
    ∃ e, (Node.row [.space "1em", .operator "max", .identifier "a",
      .identifier "b"]).bare.compile "" = .ok e ∧ e.code = "np.maximum(a, b)" := by
  refine ⟨by decide +kernel, ⟨[.text "np.maximum(", .symbol "a" "", .text ",", .symbol "b" "",
    .text ")"], []⟩, ?_, ?_⟩ <;> decide +kernel

end Tree

end Node

end Formula

end Kinetics
