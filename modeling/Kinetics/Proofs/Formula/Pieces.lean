import Kinetics.Proofs.Formula.Joined
import Kinetics.Proofs.Formula.Zeroing

/-!
# Kinetics.Proofs.Formula.Pieces

The code of a formula in pieces. With all of them it is the code of the formula whose dropped
brackets are nought, without those that may go it is the code of the pruned formula (`divided`).

There are no pieces where what is left would be put together in another way than the whole: where
siblings are all gone or have become another call form, where one between commas is left out, or
where a name that is made of them differs.
-/

namespace Kinetics

namespace Formula

namespace Node

open Arithmetic (Sign)
open Python (Piece Marks)

def signText : Sign → Fragment
  | .plus => .text "+"
  | .minus => .text "-"

/-- How nought and its signs are written in the code of a formula. -/
def marks : Marks Fragment :=
  ⟨.text "(", .text "0", .text ")", signText⟩

section Code

variable {p : Piece Fragment} {ps qs : List (Piece Fragment)}

/-- The code with all pieces. -/
def fullCode (ps : List (Piece Fragment)) : List Fragment :=
  ps.flatMap (Piece.full marks)

/-- The code without the pieces that are left out. -/
def shortCode (ps : List (Piece Fragment)) : List Fragment :=
  ps.flatMap (Piece.short marks)

@[simp] theorem fullCode_nil : fullCode [] = [] := rfl

@[simp] theorem shortCode_nil : shortCode [] = [] := rfl

@[simp] theorem fullCode_cons : fullCode (p :: ps) = p.full marks ++ fullCode ps :=
  List.flatMap_cons

@[simp] theorem shortCode_cons : shortCode (p :: ps) = p.short marks ++ shortCode ps :=
  List.flatMap_cons

@[simp] theorem fullCode_append : fullCode (ps ++ qs) = fullCode ps ++ fullCode qs :=
  List.flatMap_append

@[simp] theorem shortCode_append : shortCode (ps ++ qs) = shortCode ps ++ shortCode qs :=
  List.flatMap_append

@[simp] theorem fullCode_both (fs : List Fragment) : fullCode (fs.map .both) = fs := by
  simp [fullCode, List.flatMap_map, Piece.full]

@[simp] theorem shortCode_both (fs : List Fragment) : shortCode (fs.map .both) = fs := by
  simp [shortCode, List.flatMap_map, Piece.short]

def grouped (ps : List (Piece Fragment)) : List (Piece Fragment) :=
  .both (.text "(") :: (ps ++ [.both (.text ")")])

@[simp] theorem fullCode_grouped : fullCode (grouped ps) = parenthesized (fullCode ps) := by
  simp [grouped, parenthesized, Piece.full]

@[simp] theorem shortCode_grouped : shortCode (grouped ps) = parenthesized (shortCode ps) := by
  simp [grouped, parenthesized, Piece.short]

end Code

/-- The pieces of siblings that are put together one after the other. -/
def joinPieces (joins closes : Bool) : List (Piece Sibling) → List (Piece Fragment)
  | [] => []
  | .both s :: ps =>
    if s.node.isSpace then joinPieces joins closes ps
    else
      (if joins && closes && s.node.explicit.opensFactor then [.both (.text "*")] else []) ++
        (s.pieces ++
          joinPieces joins (if s.node.isUnknown then closes else s.node.closesFactor) ps)
  | .nought :: ps =>
    (if joins && closes then [.both (.text "*")] else []) ++ .nought :: joinPieces joins true ps
  | .alone g :: ps => .alone g :: joinPieces joins true ps
  | .signed g :: ps => .signed g :: joinPieces joins closes ps
  | .leading :: ps => .leading :: joinPieces joins closes ps
  | .ahead :: ps => .ahead :: joinPieces joins closes ps

/-- The pieces of siblings with commas between them. -/
def commas (ss : List Sibling) : List (Piece Fragment) :=
  ((ss.map Sibling.pieces).intersperse [.both (.text ",")]).flatten

def visibleAmong (ss : List Sibling) : List Sibling :=
  ss.filter fun s => !s.node.isSpace

/-- The siblings behind the first one that is visible. -/
def behindHead : List Sibling → List Sibling
  | [] => []
  | s :: ss => if s.node.isSpace then behindHead ss else ss

def callPieces (k : Keyword) (arguments : List (Piece Fragment)) : List (Piece Fragment) :=
  .both (.text (Keyword.opening k)) ::
    (arguments ++ ((Keyword.closing k).map Fragment.text).map .both)

/-- Whether none of the siblings is left out. -/
def keepsAll (keep : NameSet → Bool) (ss : List Sibling) : Bool :=
  !ss.isEmpty && (left keep ss).length == ss.length

/-- The pieces of siblings that are put together as factors, or as the given call form. -/
def formPieces (keep : NameSet → Bool) (ss : List Sibling) (k : Option Keyword) :
    Option (List (Piece Fragment)) :=
  if (left keep ss).isEmpty || !forms k (ss.map Sibling.node) || !forms k (left keep ss) then none
  else
    match k with
    | none => some (joinPieces true false (arrangement keep ss))
    | some k =>
      if Keyword.separates k then
        if keepsAll keep ss then some (callPieces k (commas (visibleAmong ss).tail)) else none
      else some (callPieces k
        (joinPieces (joinsRow (some k)) false (arrange keep false (behindHead ss))))

def rowPieces (keep : NameSet → Bool) (ss : List Sibling) : Option (List (Piece Fragment)) :=
  formPieces keep ss (headKeyword? (visible (ss.map Sibling.node)))

/-- The code of a formula that stays as it is. -/
def samePieces (suffix : String) (keep : NameSet → Bool) (n : Node) :
    Option (List (Piece Fragment)) :=
  match fragments suffix (zeroed keep n).explicit, fragments suffix (resolved keep n).explicit with
  | .ok fs, .ok gs => if fs = gs then some (fs.map .both) else none
  | _, _ => none

mutual

/-- The pieces of the code of a formula. -/
def pieces (suffix : String) (keep : NameSet → Bool) : Node → Option (List (Piece Fragment))
  | .row children =>
    match siblings suffix keep children with
    | none => none
    | some ss => rowPieces keep ss
  | .fenced opener closer children =>
    if isOmitted keep (.fenced opener closer children) then some [.nought]
    else
      match siblings suffix keep children with
      | none => none
      | some ss =>
        if isOptional opener closer then (rowPieces keep ss).map grouped
        else if keepsAll keep ss then
          some (.both (.text opener) :: (commas (visibleAmong ss) ++ [.both (.text closer)]))
        else none
  | .fraction a b =>
    match pieces suffix keep a, pieces suffix keep b with
    | some pa, some pb => some (grouped pa ++ .both (.text "/") :: grouped pb)
    | _, _ => none
  | .sup a b =>
    if (zeroed keep b).explicit.isAsterisk || (resolved keep b).explicit.isAsterisk then
      samePieces suffix keep (.sup a b)
    else
      match pieces suffix keep a, pieces suffix keep b with
      | some pa, some pb => some (grouped pa ++ .both (.text "**") :: grouped pb)
      | _, _ => none
  | .root children =>
    match siblings suffix keep children with
    | none => none
    | some ss =>
      if (left keep ss).isEmpty then none
      else some (grouped (joinPieces false false (arrangement keep ss)) ++
        [.both (.text "**"), .both (.text "0.5")])
  | .sub a b => samePieces suffix keep (.sub a b)
  | .identifier s => samePieces suffix keep (.identifier s)
  | .number s => samePieces suffix keep (.number s)
  | .operator s => samePieces suffix keep (.operator s)
  | .space s => samePieces suffix keep (.space s)
  | .text s => samePieces suffix keep (.text s)
  | .unknown s => samePieces suffix keep (.unknown s)

def siblings (suffix : String) (keep : NameSet → Bool) : List Node → Option (List Sibling)
  | [] => some []
  | n :: ns =>
    match pieces suffix keep n, siblings suffix keep ns with
    | some ps, some ss => some (⟨n, ps⟩ :: ss)
    | _, _ => none

end

variable {suffix : String} {keep : NameSet → Bool} {n : Node} {ns children : List Node}
  {ss : List Sibling} {s : Sibling} {ps : List (Piece Fragment)} {qs : List (Piece Sibling)}
  {joins closes front : Bool}

theorem zeroed_operator? (n : Node) : (zeroed keep n).operator? = n.operator? := by
  cases n with
  | fenced opener closer children =>
    rw [zeroed]
    split
    · rfl
    · split <;> rfl
  | _ => rfl

theorem zeroed_isSpace (n : Node) : (zeroed keep n).isSpace = n.isSpace := by
  cases n with
  | fenced opener closer children =>
    rw [zeroed]
    split
    · rfl
    · split <;> rfl
  | _ => rfl

/-- Setting brackets to nought does not change what stands next to a formula. -/
theorem fits_zeroed (n : Node) : Fits (zeroed keep n) n := by
  refine ⟨zeroed_operator? n, zeroed_isSpace n, ?_, ?_⟩
  · cases n with
    | fenced opener closer children =>
      rw [zeroed]
      split
      · rfl
      · split <;> rfl
    | _ => rfl
  · cases n with
    | row children =>
      rw [zeroed, zeroedAll_eq, opensFactor_row, opensFactor_row,
        visible_map fun n _ => zeroed_isSpace n, headKeyword?_map fun n _ => zeroed_operator? n]
    | fenced opener closer children =>
      rw [zeroed]
      split
      · rfl
      · split <;> rfl
    | _ => rfl

/-- The pieces of a formula: what it is set to nought, and what is left of it. -/
structure Divided (suffix : String) (keep : NameSet → Bool) (n : Node)
    (ps : List (Piece Fragment)) : Prop where
  fits : Fits (resolved keep n) n
  full : fragments suffix (zeroed keep n).explicit = .ok (fullCode ps)
  short : fragments suffix (resolved keep n).explicit = .ok (shortCode ps)

section Join

variable {f : Node → Node}

/-- The code of siblings that each become another. -/
def codeBy (suffix : String) (f : Node → Node) (joins closes : Bool) (ns : List Node) :
    List Fragment :=
  joinCode suffix joins closes ((visible (ns.map f)).map explicit)

theorem codeBy_cons (h : Fits (f n) n) {fs : List Fragment}
    (hf : fragments suffix (f n).explicit = .ok fs) :
    codeBy suffix f joins closes (n :: ns) =
      if n.isSpace then codeBy suffix f joins closes ns
      else
        (if joins && closes && n.explicit.opensFactor then [Fragment.text "*"] else []) ++ (fs ++
          codeBy suffix f joins (if n.isUnknown then closes else n.closesFactor) ns) := by
  rw [codeBy, List.map_cons, visible, List.filter_cons, h.space]
  cases n.isSpace with
  | true => rfl
  | false =>
    simp only [Bool.not_false, if_true, List.map_cons, joinCode, codeOf_of_ok hf, h.opens,
      explicit_isUnknown, explicit_closesFactor, h.unknown, h.closes]
    rfl

theorem fragments_zero : fragments suffix (Node.number "0").explicit = .ok [marks.zero] := by
  have h : (constants.lookup "0").getD "0" = "0" := by decide +kernel
  rw [explicit, fragments, h]
  rfl

theorem fragments_nought : fragments suffix nought.explicit =
    .ok [marks.opening, marks.zero, marks.closing] := by
  rw [nought, explicit_grouped rfl, fragments_grouped, fragments_zero]
  rfl

/-- A dropped bracket, set to nought. -/
theorem codeBy_omitted (h : isOmitted keep n = true) :
    codeBy suffix (zeroed keep) joins closes (n :: ns) =
      (if joins && closes then [Fragment.text "*"] else []) ++ (marks.opening :: marks.zero ::
        marks.closing :: codeBy suffix (zeroed keep) joins true ns) := by
  cases n with
  | fenced opener closer children =>
    have hz : zeroed keep (.fenced opener closer children) = nought := by rw [zeroed, if_pos h]
    have ho : (Node.fenced opener closer children).explicit.opensFactor = true := by
      rw [explicit]
      rfl
    rw [codeBy_cons (fits_zeroed _) (hz ▸ fragments_nought), ho, Bool.and_true]
    rfl
  | _ => cases h

/-- A sign stays as it is, and nothing next to it is multiplied with it. -/
theorem codeBy_sign {g : Sign} (h : n.sign? = some g) :
    codeBy suffix (zeroed keep) joins closes (n :: ns) =
      marks.sign g :: codeBy suffix (zeroed keep) joins false ns := by
  cases n with
  | operator s =>
    have hplus : operatorCode "+" = "+" := by decide +kernel
    have hminus : operatorCode "-" = "-" := by decide +kernel
    have hsign : operatorCode "−" = "-" := by decide +kernel
    have hs : s = "+" ∧ g = .plus ∨ (s = "-" ∨ s = "−") ∧ g = .minus := by
      simp only [sign?, operator?, Option.bind_some] at h
      split at h
      · exact .inl ⟨‹_›, by cases h; rfl⟩
      · split at h
        · exact .inr ⟨‹_›, by cases h; rfl⟩
        · cases h
    have hf : fragments suffix (zeroed keep (.operator s)).explicit = .ok [marks.sign g] := by
      rcases hs with ⟨rfl, rfl⟩ | ⟨rfl | rfl, rfl⟩ <;>
        simp [zeroed, explicit, fragments, hplus, hminus, hsign, marks, signText]
    have ho : (Node.operator s).explicit.opensFactor = false ∧
        (Node.operator s).closesFactor = false := by
      rcases hs with ⟨rfl, rfl⟩ | ⟨rfl | rfl, rfl⟩ <;> decide
    rw [codeBy_cons (fits_zeroed _) hf, ho.1, ho.2, Bool.and_false]
    rfl
  | _ => cases h

theorem exists_sign (h : endsAtSign (n :: ns) = true) : ∃ g, n.sign? = some g := by
  have hsign : n.sign?.isSome = true := by rwa [← isSign_eq]
  exact Option.isSome_iff_exists.1 hsign

/-- In front of a sign, and at the end, nothing is multiplied. -/
theorem codeBy_of_endsAtSign (h : endsAtSign ns = true) (closes closes' : Bool) :
    codeBy suffix (zeroed keep) joins closes ns =
      codeBy suffix (zeroed keep) joins closes' ns := by
  cases ns with
  | nil => rfl
  | cons n ns =>
    obtain ⟨g, hg⟩ := exists_sign h
    rw [codeBy_sign hg, codeBy_sign hg]

/-- A dropped bracket in front stands behind nothing. -/
theorem closes_eq_false {s : Sibling} (hs : isOmitted keep s.node = true)
    (hc : endsAtSign (s.node :: ns) = true ∨ closes = false) : closes = false := by
  refine hc.resolve_left fun h => ?_
  rw [not_omitted_of_sign (show s.node.isSign = true from h)] at hs
  cases hs

theorem codeBy_both {s : Sibling} (hs : Divided suffix keep s.node s.pieces)
    (ih : ∀ closes, codeBy suffix (zeroed keep) joins closes ns =
      fullCode (joinPieces joins closes qs)) :
    codeBy suffix (zeroed keep) joins closes (s.node :: ns) =
      fullCode (joinPieces joins closes (.both s :: qs)) := by
  rw [codeBy_cons (fits_zeroed _) hs.full, joinPieces]
  split
  · exact ih closes
  · rw [ih, fullCode_append, fullCode_append]
    split <;> rfl

/-- The code of siblings whose dropped brackets are set to nought. -/
theorem join_full (hd : ∀ s ∈ ss, Divided suffix keep s.node s.pieces)
    (hc : front = true → endsAtSign (ss.map Sibling.node) = true ∨ closes = false) :
    codeBy suffix (zeroed keep) joins closes (ss.map Sibling.node) =
      fullCode (joinPieces joins closes (arrange keep front ss)) := by
  fun_induction arrange keep front ss generalizing closes with
  | case1 => rfl
  | case2 front s hs hf =>
    obtain rfl := closes_eq_false hs (hc (by simp_all))
    rw [List.map_cons, codeBy_omitted hs, Bool.and_false]
    rfl
  | case3 front s hs t ts ht hf ih =>
    simp only [Bool.and_eq_true] at hf
    obtain rfl := closes_eq_false hs (hc hf.1)
    have hrest := @ih false (fun u hu => hd u (by simp [hu])) (fun _ => .inr rfl)
    rw [List.map_cons, List.map_cons, codeBy_omitted hs, codeBy_sign (sign?_of_plus ht), hrest,
      Bool.and_false]
    rfl
  | case4 front s hs t ts ht hf ih =>
    simp only [Bool.and_eq_true] at hf
    obtain rfl := closes_eq_false hs (hc hf.1)
    have hrest := @ih false (fun u hu => hd u (List.mem_cons_of_mem _ hu)) (fun _ => .inr rfl)
    rw [List.map_cons, codeBy_omitted hs, codeBy_of_endsAtSign hf.2 true false, hrest,
      Bool.and_false]
    rfl
  | case5 front s ss hs hf ih =>
    have hrest := @ih true (fun t ht => hd t (List.mem_cons_of_mem _ ht))
      fun h => absurd h Bool.false_ne_true
    rw [List.map_cons, codeBy_omitted hs, hrest, joinPieces, fullCode_append]
    split <;> rfl
  | case6 front s hs g t ts hg ht ih =>
    simp only [Bool.and_eq_true] at ht
    have hrest := @ih closes (fun u hu => hd u (by simp [hu])) (fun _ => .inl ht.2)
    rw [List.map_cons, List.map_cons, codeBy_sign hg, codeBy_omitted ht.1,
      codeBy_of_endsAtSign ht.2 true closes, hrest, Bool.and_false]
    rfl
  | case7 front s hs g t ts hg ht ih =>
    exact codeBy_both (hd s (by simp)) fun closes =>
      ih (fun u hu => hd u (List.mem_cons_of_mem _ hu)) fun h => absurd h Bool.false_ne_true
  | case8 front s hs ss hno ih =>
    exact codeBy_both (hd s (by simp)) fun closes =>
      ih (fun u hu => hd u (List.mem_cons_of_mem _ hu)) fun h => absurd h Bool.false_ne_true

theorem codeBy_zero : codeBy suffix (resolved keep) joins closes (.number "0" :: ns) =
    (if joins && closes then [Fragment.text "*"] else []) ++
      marks.zero :: codeBy suffix (resolved keep) joins true ns := by
  have hz : resolved keep (.number "0") = .number "0" := rfl
  have ho : (Node.number "0").explicit.opensFactor = true := by
    rw [explicit]
    rfl
  rw [codeBy_cons (hz.symm ▸ .refl _) (hz ▸ fragments_zero), ho, Bool.and_true]
  rfl

/-- The code of the siblings that are left. -/
theorem join_short (hd : ∀ s, .both s ∈ qs → Divided suffix keep s.node s.pieces)
    (hq : ∀ g, .alone g ∉ qs) :
    codeBy suffix (resolved keep) joins closes (qs.flatMap leftNode) =
      shortCode (joinPieces joins closes qs) := by
  induction qs generalizing closes with
  | nil => rfl
  | cons q qs ih =>
    have hd' : ∀ s, .both s ∈ qs → Divided suffix keep s.node s.pieces := fun s hs =>
      hd s (List.mem_cons_of_mem _ hs)
    have hq' : ∀ g, .alone g ∉ qs := fun g hg => hq g (List.mem_cons_of_mem _ hg)
    have ih (closes : Bool) := @ih closes hd' hq'
    rw [List.flatMap_cons]
    cases q with
    | both s =>
      have hs := hd s List.mem_cons_self
      have hl : leftNode (.both s) ++ qs.flatMap leftNode = s.node :: qs.flatMap leftNode := rfl
      rw [hl, codeBy_cons hs.fits hs.short, joinPieces]
      split
      · exact ih closes
      · rw [ih, shortCode_append, shortCode_append]
        split <;> rfl
    | nought =>
      have hl : leftNode .nought ++ qs.flatMap leftNode = .number "0" :: qs.flatMap leftNode := rfl
      rw [hl, codeBy_zero, ih true, joinPieces, shortCode_append]
      split <;> rfl
    | alone g => exact absurd List.mem_cons_self (hq g)
    | signed g => exact ih closes
    | leading => exact ih closes
    | ahead => exact ih closes

theorem mem_of_both (h : .both s ∈ arrange keep front ss) : s ∈ ss := by
  fun_induction arrange keep front ss <;> simp_all <;> grind

theorem not_alone {g : Sign} : .alone g ∉ arrange keep front ss := by
  fun_induction arrange keep front ss <;> simp_all

/-- Where nothing is left, nothing is multiplied. -/
theorem joinPieces_gone (h : qs.flatMap leftNode = []) (joins closes closes' : Bool) :
    joinPieces joins closes qs = joinPieces joins closes' qs ∧
      shortCode (joinPieces joins closes qs) = [] := by
  induction qs with
  | nil => exact ⟨rfl, rfl⟩
  | cons q qs ih =>
    rw [List.flatMap_cons, List.append_eq_nil_iff] at h
    obtain ⟨heq, hshort⟩ := ih h.2
    cases q with
    | both s => cases h.1
    | nought => cases h.1
    | alone g => cases h.1
    | _ => exact ⟨by simp only [joinPieces, heq], hshort⟩

theorem join_fill (h : qs.flatMap leftNode = []) (hl : (fill qs).flatMap leftNode ≠ [])
    (joins : Bool) :
    fullCode (joinPieces joins false (fill qs)) = fullCode (joinPieces joins false qs) ∧
      shortCode (joinPieces joins false (fill qs)) = [marks.zero] := by
  fun_induction fill qs with
  | case1 qs ih =>
    obtain ⟨hfull, hshort⟩ := ih h hl
    exact ⟨congrArg (Piece.full marks .ahead ++ ·) hfull, hshort⟩
  | case2 qs =>
    have hgone : qs.flatMap leftNode = [] := h
    obtain ⟨heq, hshort⟩ := joinPieces_gone hgone joins true false
    rw [joinPieces, Bool.and_false, joinPieces, ← heq]
    exact ⟨rfl, congrArg (marks.zero :: ·) hshort⟩
  | case3 g qs =>
    have hgone : qs.flatMap leftNode = [] := h
    obtain ⟨heq, hshort⟩ := joinPieces_gone hgone joins true false
    rw [joinPieces, joinPieces, ← heq]
    exact ⟨rfl, congrArg (marks.zero :: ·) hshort⟩
  | case4 => exact absurd h hl

/-- The code of siblings that do not all go, and of what is left of them. -/
theorem join_arrangement (hd : ∀ s ∈ ss, Divided suffix keep s.node s.pieces)
    (hl : left keep ss ≠ []) :
    codeBy suffix (zeroed keep) joins false (ss.map Sibling.node) =
        fullCode (joinPieces joins false (arrangement keep ss)) ∧
      codeBy suffix (resolved keep) joins false (left keep ss) =
        shortCode (joinPieces joins false (arrangement keep ss)) := by
  have hfull : codeBy suffix (zeroed keep) joins false (ss.map Sibling.node) =
      fullCode (joinPieces joins false (arrange keep true ss)) := join_full hd fun _ => .inr rfl
  rw [left, arrangement] at hl ⊢
  split
  · rename_i he
    rw [if_pos he] at hl
    have hgone : (arrange keep true ss).flatMap leftNode = [] := List.isEmpty_iff.1 he
    obtain ⟨heq, hshort⟩ := join_fill hgone hl joins
    refine ⟨hfull.trans heq.symm, ?_⟩
    rw [hshort, left_fill hgone hl, codeBy_zero, Bool.and_false]
    rfl
  · exact ⟨hfull, join_short (fun s hs => hd s (mem_of_both hs)) fun g => not_alone⟩

/-- The code of siblings behind others. -/
theorem join_behind (hd : ∀ s ∈ ss, Divided suffix keep s.node s.pieces) :
    codeBy suffix (zeroed keep) joins closes (ss.map Sibling.node) =
        fullCode (joinPieces joins closes (arrange keep false ss)) ∧
      codeBy suffix (resolved keep) joins closes ((arrange keep false ss).flatMap leftNode) =
        shortCode (joinPieces joins closes (arrange keep false ss)) :=
  ⟨join_full hd nofun, join_short (fun s hs => hd s (mem_of_both hs)) fun _ => not_alone⟩

end Join

section Left

theorem mem_left (h : n ∈ left keep ss) : n = .number "0" ∨ ∃ s ∈ ss, n = s.node := by
  rw [left, arrangement] at h
  split at h
  · rename_i he
    rw [left_fill (List.isEmpty_iff.1 he) (List.ne_nil_of_mem h)] at h
    exact .inl (List.mem_singleton.1 h)
  · obtain ⟨q, hq, hn⟩ := List.mem_flatMap.1 h
    cases q with
    | both s => exact .inr ⟨s, mem_of_both hq, List.mem_singleton.1 hn⟩
    | nought => exact .inl (List.mem_singleton.1 hn)
    | alone g => exact .inl (List.mem_singleton.1 hn)
    | _ => cases hn

/-- What is left stands among its siblings as before, and can be compiled. -/
theorem left_fits (hd : ∀ s ∈ ss, Divided suffix keep s.node s.pieces) (h : n ∈ left keep ss) :
    Fits (resolved keep n) n ∧ ∃ fs, fragments suffix (resolved keep n).explicit = .ok fs := by
  rcases mem_left h with rfl | ⟨s, hs, rfl⟩
  · exact ⟨.refl _, _, fragments_zero⟩
  · exact ⟨(hd s hs).fits, _, (hd s hs).short⟩

theorem length_arrange_le :
    ((arrange keep front ss).flatMap leftNode).length ≤ ss.length := by
  fun_induction arrange keep front ss <;> simp_all [leftNode] <;> omega

/-- If as many nodes are left as there are siblings, they are the siblings. -/
theorem arrange_of_length
    (h : ((arrange keep front ss).flatMap leftNode).length = ss.length) :
    ((arrange keep front ss).flatMap leftNode).map (resolved keep) =
      (ss.map Sibling.node).map (resolved keep) := by
  have hzero : resolved keep (.number "0") = .number "0" := rfl
  have hle {front : Bool} {ss : List Sibling} :
      ((arrange keep front ss).flatMap leftNode).length ≤ ss.length := length_arrange_le
  fun_induction arrange keep front ss with
  | case1 => rfl
  | case2 => cases h
  | case3 front s hs t ts ht hf ih =>
    have hrest := @hle true ts
    simp only [List.flatMap_cons, leftNode, List.nil_append, List.length_cons] at h
    omega
  | case4 front s hs t ts ht hf ih =>
    have hrest := @hle true (t :: ts)
    simp only [List.flatMap_cons, leftNode, List.nil_append, List.length_cons] at h hrest
    omega
  | case5 front s ss hs hf ih =>
    simp only [List.flatMap_cons, leftNode, List.singleton_append, List.length_cons,
      Nat.succ_inj] at h ⊢
    rw [List.map_cons, List.map_cons, List.map_cons, ih h, resolved_omitted hs, hzero]
  | case6 front s hs g t ts hg ht ih =>
    have hrest := @hle front ts
    simp only [List.flatMap_cons, leftNode, List.nil_append, List.length_cons] at h
    omega
  | case7 front s hs g t ts hg ht ih =>
    simp only [List.flatMap_cons, leftNode, List.singleton_append, List.length_cons,
      Nat.succ_inj] at h ⊢
    rw [List.map_cons, List.map_cons, List.map_cons, ih h]
  | case8 front s hs ss hno ih =>
    simp only [List.flatMap_cons, leftNode, List.singleton_append, List.length_cons,
      Nat.succ_inj] at h ⊢
    rw [List.map_cons, List.map_cons, List.map_cons, ih h]

/-- Siblings none of which is left out are all resolved. -/
theorem left_of_keepsAll (h : keepsAll keep ss = true) : left keep ss ≠ [] ∧
    (left keep ss).map (resolved keep) = (ss.map Sibling.node).map (resolved keep) := by
  simp only [keepsAll, Bool.and_eq_true, Bool.not_eq_true', List.isEmpty_eq_false_iff,
    beq_iff_eq] at h
  obtain ⟨hne, hlength⟩ := h
  have hl : left keep ss ≠ [] := by
    intro hnil
    rw [hnil] at hlength
    exact hne (List.length_eq_zero_iff.1 hlength.symm)
  refine ⟨hl, ?_⟩
  rw [left, arrangement] at hl hlength ⊢
  split
  · rename_i he
    rw [if_pos he] at hl hlength
    have hgone : (arrange keep true ss).flatMap leftNode = [] := List.isEmpty_iff.1 he
    rw [left_fill hgone hl] at hlength ⊢
    obtain ⟨s, rfl⟩ := List.length_eq_one_iff.1 hlength.symm
    have hs : isOmitted keep s.node = true := by
      by_contra hs
      rw [arrange, if_neg hs] at hgone
      cases hg : s.node.sign? <;> simp [hg, leftNode] at hgone
    rw [List.map_singleton, List.map_singleton, List.map_singleton, resolved_omitted hs]
    rfl
  · rename_i he
    rw [if_neg he] at hlength
    exact arrange_of_length hlength

end Left

section Call

variable {k : Keyword} {f : Node → Node}

theorem mem_behindHead (h : s ∈ behindHead ss) : s ∈ ss := by
  induction ss with
  | nil => cases h
  | cons t ss ih =>
    rw [behindHead] at h
    split at h
    · exact List.mem_cons_of_mem _ (ih h)
    · exact List.mem_cons_of_mem _ h

theorem arrange_stays (hs : s.node.sign? = none) (ho : isOmitted keep s.node = false) :
    arrange keep front (s :: ss) = .both s :: arrange keep false ss := by
  cases ss <;> simp [arrange, ho, hs]

theorem sign?_of_keyword {x : String} (h : Keyword.ofOperator? x = some k) :
    (Node.operator x).sign? = none := by
  have hplus : Keyword.ofOperator? "+" = none := by decide +kernel
  have hminus : Keyword.ofOperator? "-" = none := by decide +kernel
  have hsign : Keyword.ofOperator? "−" = none := by decide +kernel
  have h1 : x ≠ "+" := by
    rintro rfl
    cases hplus.symm.trans h
  have h2 : ¬(x = "-" ∨ x = "−") := by
    rintro (rfl | rfl)
    · cases hminus.symm.trans h
    · cases hsign.symm.trans h
  simp [sign?, operator?, h1, h2]

/-- The siblings of a call form: blanks, the operator that starts it, and the arguments. -/
theorem arrange_call (h : headKeyword? (visible (ss.map Sibling.node)) = some k) :
    ∃ gap head, (∀ n ∈ gap, n.isSpace = true) ∧ head.isSpace = false ∧
      ss.map Sibling.node = gap ++ head :: (behindHead ss).map Sibling.node ∧
      (arrange keep front ss).flatMap leftNode =
        gap ++ head :: (arrange keep false (behindHead ss)).flatMap leftNode := by
  induction ss generalizing front with
  | nil => cases h
  | cons s ss ih =>
    rw [List.map_cons, visible, List.filter_cons] at h
    cases hs : s.node.isSpace with
    | true =>
      have hsign : s.node.sign? = none ∧ isOmitted keep s.node = false := by
        cases hn : s.node <;> first | exact ⟨rfl, rfl⟩ | (rw [hn] at hs; cases hs)
      obtain ⟨gap, head, hgap, hhead, hss, hleft⟩ := @ih false (by simpa [hs, visible] using h)
      refine ⟨s.node :: gap, head, List.forall_mem_cons.2 ⟨hs, hgap⟩, hhead, ?_, ?_⟩
      · rw [List.map_cons, hss, behindHead, if_pos hs]
        rfl
      · rw [arrange_stays hsign.1 hsign.2, List.flatMap_cons, hleft, behindHead, if_pos hs]
        rfl
    | false =>
      have hsign : s.node.sign? = none ∧ isOmitted keep s.node = false := by
        rw [hs, Bool.not_false, if_pos rfl, headKeyword?_cons] at h
        obtain ⟨x, hx, hk⟩ := Option.bind_eq_some_iff.1 h
        cases hn : s.node with
        | operator y =>
          rw [hn] at hx
          cases hx
          exact ⟨sign?_of_keyword hk, rfl⟩
        | _ =>
          rw [hn] at hx
          cases hx
      have hdrop : behindHead (s :: ss) = ss := by
        rw [behindHead, if_neg (by simp [hs])]
      refine ⟨[], s.node, by simp, hs, by rw [hdrop]; rfl, ?_⟩
      rw [arrange_stays hsign.1 hsign.2, hdrop]
      rfl

/-- The arguments of a call form. -/
theorem tail_visible {gap : List Node} {head : Node} (hf : ∀ n ∈ gap ++ head :: ns,
    (f n).isSpace = n.isSpace) (hgap : ∀ n ∈ gap, n.isSpace = true) (hhead : head.isSpace = false) :
    ((visible ((gap ++ head :: ns).map f)).map explicit).tail =
      (visible (ns.map f)).map explicit := by
  have hnil : visible gap = [] := by
    rw [visible, List.filter_eq_nil_iff]
    simpa using hgap
  have hns : ∀ n ∈ ns, (f n).isSpace = n.isSpace := fun n hn => hf n (by simp [hn])
  have happend : visible (gap ++ head :: ns) = head :: visible ns := by
    have hsplit : visible (gap ++ head :: ns) = visible gap ++ visible (head :: ns) :=
      List.filter_append _ _
    rw [hsplit, hnil, visible, List.filter_cons, hhead]
    rfl
  rw [visible_map hf, visible_map hns, happend]
  rfl

end Call

section Form

variable {k : Option Keyword} {f : Node → Node} {g : Sibling → List Fragment}

theorem fullCode_call (k : Keyword) (ps : List (Piece Fragment)) : fullCode (callPieces k ps) =
    .text (Keyword.opening k) :: (fullCode ps ++ (Keyword.closing k).map .text) := by
  rw [callPieces, fullCode_cons, fullCode_append, fullCode_both]
  rfl

theorem shortCode_call (k : Keyword) (ps : List (Piece Fragment)) : shortCode (callPieces k ps) =
    .text (Keyword.opening k) :: (shortCode ps ++ (Keyword.closing k).map .text) := by
  rw [callPieces, shortCode_cons, shortCode_append, shortCode_both]
  rfl

theorem flatMap_intersperse {α β : Type} (h : α → List β) (sep : List α) (xs : List (List α)) :
    (xs.intersperse sep).flatten.flatMap h =
      ((xs.map fun x => x.flatMap h).intersperse (sep.flatMap h)).flatten := by
  induction xs with
  | nil => rfl
  | cons x xs ih =>
    cases xs with
    | nil => simp
    | cons y xs => simpa using ih

theorem fullCode_commas (ss : List Sibling) : fullCode (commas ss) =
    ((ss.map fun s => fullCode s.pieces).intersperse [.text ","]).flatten := by
  rw [fullCode, commas, flatMap_intersperse, List.map_map]
  rfl

theorem shortCode_commas (ss : List Sibling) : shortCode (commas ss) =
    ((ss.map fun s => shortCode s.pieces).intersperse [.text ","]).flatten := by
  rw [shortCode, commas, flatMap_intersperse, List.map_map]
  rfl

/-- The codes of the siblings that are visible, each by itself. -/
theorem codes_visible (hs : ∀ s ∈ ss, (f s.node).isSpace = s.node.isSpace)
    (hg : ∀ s ∈ ss, fragments suffix (f s.node).explicit = .ok (g s)) :
    ((visible ((ss.map Sibling.node).map f)).map explicit).map (codeOf suffix) =
      (visibleAmong ss).map g := by
  induction ss with
  | nil => rfl
  | cons s ss ih =>
    obtain ⟨hs, hss⟩ := List.forall_mem_cons.1 hs
    obtain ⟨hg, hgs⟩ := List.forall_mem_cons.1 hg
    have hrest := ih hss hgs
    simp only [visible, visibleAmong, List.map_cons, List.filter_cons, hs] at hrest ⊢
    split
    · simp only [List.map_cons, hrest, codeOf_of_ok hg]
    · exact hrest

theorem tail_codes (hs : ∀ s ∈ ss, (f s.node).isSpace = s.node.isSpace)
    (hg : ∀ s ∈ ss, fragments suffix (f s.node).explicit = .ok (g s)) :
    ((visible ((ss.map Sibling.node).map f)).map explicit).tail.map (codeOf suffix) =
      (visibleAmong ss).tail.map g := by
  rw [List.map_tail, codes_visible hs hg, List.map_tail]

/-- The pieces of a row are those of its code. -/
theorem formPieces_code (hd : ∀ s ∈ ss, Divided suffix keep s.node s.pieces)
    (h : formPieces keep ss k = some ps) : left keep ss ≠ [] ∧
      forms k (ss.map Sibling.node) = true ∧ forms k (left keep ss) = true ∧
      formCode suffix k ((visible ((ss.map Sibling.node).map (zeroed keep))).map explicit) =
        fullCode ps ∧
      formCode suffix k ((visible ((left keep ss).map (resolved keep))).map explicit) =
        shortCode ps := by
  unfold formPieces at h
  split at h
  · cases h
  rename_i hno
  simp only [Bool.not_eq_true, Bool.or_eq_false_iff, List.isEmpty_eq_false_iff,
    Bool.not_eq_false'] at hno
  obtain ⟨⟨hl, hall⟩, hleft⟩ := hno
  refine ⟨hl, hall, hleft, ?_⟩
  cases k with
  | none =>
    cases h
    exact join_arrangement hd hl
  | some k =>
    have hhead : headKeyword? (visible (ss.map Sibling.node)) = some k := by
      simp only [forms, Bool.and_eq_true, beq_iff_eq] at hall
      exact hall.1.1
    simp only at h
    simp only [formCode]
    split at h
    · rename_i hsep
      split at h
      · rename_i hkeeps
        cases h
        rw [(left_of_keepsAll hkeeps).2, if_pos hsep, if_pos hsep, fullCode_call, shortCode_call,
          fullCode_commas, shortCode_commas,
          tail_codes (g := fun s => fullCode s.pieces) (fun s _ => (fits_zeroed s.node).space)
            fun s hs => (hd s hs).full,
          tail_codes (g := fun s => shortCode s.pieces) (fun s hs => (hd s hs).fits.space)
            fun s hs => (hd s hs).short]
        exact ⟨rfl, rfl⟩
      · cases h
    · rename_i hsep
      cases h
      rw [if_neg hsep, if_neg hsep]
      obtain ⟨gap, head, hgap, hhead, hss, hnodes⟩ := @arrange_call keep ss true k hhead
      have hl : left keep ss = gap ++
          head :: (arrange keep false (behindHead ss)).flatMap leftNode := by
        rw [left, arrangement, if_neg (by simp [hnodes]), hnodes]
      obtain ⟨hfull, hshort⟩ : codeBy suffix (zeroed keep) (joinsRow (some k)) false _ = _ ∧ _ :=
        join_behind fun s hs => hd s (mem_behindHead hs)
      rw [codeBy] at hfull hshort
      rw [hss, hl, tail_visible (fun n _ => zeroed_isSpace n) hgap hhead, tail_visible
        (fun n hn => (left_fits hd (hl ▸ hn)).1.space) hgap hhead, hfull, hshort, fullCode_call,
        shortCode_call]
      exact ⟨rfl, rfl⟩

end Form

section Divided

variable {opener closer : String} {a b : Node} {pa pb : List (Piece Fragment)}

theorem compiled_visible {f : Node → Node}
    (h : ∀ n ∈ ns, ∃ fs, fragments suffix (f n).explicit = .ok fs) :
    ∀ n ∈ visible (ns.map f), ∃ fs, fragments suffix n.explicit = .ok fs := by
  intro n hn
  obtain ⟨m, hm, rfl⟩ := List.mem_map.1 (List.mem_filter.1 hn).1
  exact h m hm

theorem compiled_full (hd : ∀ s ∈ ss, Divided suffix keep s.node s.pieces) :
    ∀ n ∈ ss.map Sibling.node, ∃ fs, fragments suffix (zeroed keep n).explicit = .ok fs :=
  List.forall_mem_map.2 fun s hs => ⟨_, (hd s hs).full⟩

/-- The codes of a row and of what is left of it. -/
theorem row_code (hd : ∀ s ∈ ss, Divided suffix keep s.node s.pieces)
    (h : rowPieces keep ss = some ps) : left keep ss ≠ [] ∧
      fragments suffix (zeroed keep (.row (ss.map Sibling.node))).explicit = .ok (fullCode ps) ∧
      fragments suffix (explicit (.row ((left keep ss).map (resolved keep)))) =
        .ok (shortCode ps) ∧
      headKeyword? (visible ((left keep ss).map (resolved keep))) =
        headKeyword? (visible (ss.map Sibling.node)) := by
  obtain ⟨hl, hall, hleft, hfull, hshort⟩ := formPieces_code hd h
  have hfits (n : Node) (hn : n ∈ left keep ss) : Fits (resolved keep n) n := (left_fits hd hn).1
  have hz : forms (headKeyword? (visible (ss.map Sibling.node)))
      ((ss.map Sibling.node).map (zeroed keep)) = true := by
    rw [forms_map (fun n _ => zeroed_isSpace n) fun n _ => zeroed_operator? n, hall]
  have hr : forms (headKeyword? (visible (ss.map Sibling.node)))
      ((left keep ss).map (resolved keep)) = true := by
    rw [forms_map (fun n hn => (hfits n hn).space) fun n hn => (hfits n hn).operator, hleft]
  refine ⟨hl, ?_, ?_, ?_⟩
  · rw [zeroed, zeroedAll_eq, fragments_forms hz (compiled_visible (compiled_full hd)), hfull]
  · rw [fragments_forms hr (compiled_visible fun n hn => (left_fits hd hn).2), hshort]
  · simp only [forms, Bool.and_eq_true, beq_iff_eq] at hr
    exact hr.1.1

theorem divided_row (hs : ∀ s ∈ ss, Decided keep s.node)
    (hd : ∀ s ∈ ss, Divided suffix keep s.node s.pieces) (h : rowPieces keep ss = some ps) :
    Divided suffix keep (.row (ss.map Sibling.node)) ps := by
  obtain ⟨hl, hfull, hshort, hhead⟩ := row_code hd h
  rcases resolved_row hs hl with hr | ⟨hzero, hr⟩
  · refine ⟨?_, hfull, hr ▸ hshort⟩
    rw [hr]
    exact ⟨rfl, rfl, rfl, by rw [opensFactor_row, opensFactor_row, hhead]⟩
  · -- nought is left, as itself
    rw [hzero] at hshort hhead
    have hrow : fragments suffix (explicit (.row [.number "0"])) =
        fragments suffix (Node.number "0").explicit := by
      have he : explicit (.row [.number "0"]) = .row [explicit (.number "0")] := by
        simp [explicit, explicitAll, isSpace, headKeyword?, joinRow, joinFactors, joinAfter]
      have hn : headKeyword? [explicit (.number "0")] = none := by
        rw [explicit]
        rfl
      rw [he, fragments_row_eq, hn, rowCode, fragmentsEach, fragments_zero]
      rfl
    refine ⟨?_, hfull, ?_⟩
    · rw [hr]
      refine ⟨rfl, rfl, rfl, ?_⟩
      rw [opensFactor_row, ← hhead, explicit]
      rfl
    · rw [hr, ← hrow, hshort]

theorem divided_group (ho : isOptional opener closer = true)
    (hd' : Decided keep (.fenced opener closer (ss.map Sibling.node)))
    (hn : isOmitted keep (.fenced opener closer (ss.map Sibling.node)) = false)
    (hs : ∀ s ∈ ss, Decided keep s.node) (hd : ∀ s ∈ ss, Divided suffix keep s.node s.pieces)
    (h : rowPieces keep ss = some ps) :
    Divided suffix keep (.fenced opener closer (ss.map Sibling.node)) (grouped ps) := by
  obtain ⟨hl, hfull, hshort, -⟩ := row_code hd h
  have hcode {ns : List Node} {fs : List Fragment}
      (h : fragments suffix (explicit (.row ns)) = .ok fs) :
      fragments suffix (group ns).explicit = .ok (parenthesized fs) := by
    rw [group, explicit_grouped rfl, fragments_grouped, h]
    rfl
  have hr := resolved_group hs hl hd' ho hn
  refine ⟨?_, ?_, ?_⟩
  · rw [hr]
    exact ⟨rfl, rfl, rfl, by rw [group, explicit, explicit]; rfl⟩
  · rw [zeroed, if_neg (by simp [hn]), if_pos ho, fullCode_grouped]
    exact hcode hfull
  · rw [hr, shortCode_grouped]
    exact hcode hshort

/-- Children with commas between them. -/
theorem fenced_code {f : Node → Node} {g : Sibling → List Fragment}
    (hs : ∀ s ∈ ss, (f s.node).isSpace = s.node.isSpace)
    (hg : ∀ s ∈ ss, fragments suffix (f s.node).explicit = .ok (g s)) :
    fragments suffix (explicit (.fenced opener closer ((ss.map Sibling.node).map f))) =
      .ok (Fragment.text opener :: ((((visibleAmong ss).map g).intersperse
        [Fragment.text ","]).flatten ++ [Fragment.text closer])) := by
  have hall : ∀ n ∈ ss.map Sibling.node, ∃ fs, fragments suffix (f n).explicit = .ok fs :=
    List.forall_mem_map.2 fun s hs => ⟨_, hg s hs⟩
  rw [explicit, explicitAll_eq, fragments,
    fragmentsEach_codes (List.forall_mem_map.2 (compiled_visible hall)), codes_visible hs hg]
  rfl

theorem divided_fenced (ho : isOptional opener closer = false) (hk : keepsAll keep ss = true)
    (hs : ∀ s ∈ ss, Decided keep s.node) (hd : ∀ s ∈ ss, Divided suffix keep s.node s.pieces) :
    Divided suffix keep (.fenced opener closer (ss.map Sibling.node))
      (.both (.text opener) ::
        (commas (visibleAmong ss) ++ [Piece.both (Fragment.text closer)])) := by
  obtain ⟨hl, hleft⟩ := left_of_keepsAll hk
  have hr := resolved_fenced hs hl ho
  rw [hleft] at hr
  refine ⟨?_, ?_, ?_⟩
  · rw [hr]
    exact ⟨rfl, rfl, rfl, by rw [explicit, explicit]; rfl⟩
  · rw [zeroed, if_neg (by simp [isOmitted, ho]), if_neg (by simp [ho]), zeroedAll_eq,
      fenced_code (fun s _ => zeroed_isSpace s.node) fun s hs => (hd s hs).full]
    simp [fullCode_commas, Piece.full]
  · rw [hr, fenced_code (fun s hs => (hd s hs).fits.space) fun s hs => (hd s hs).short]
    simp [shortCode_commas, Piece.short]

theorem divided_omitted (h : isOmitted keep n = true) : Divided suffix keep n [.nought] := by
  cases n with
  | fenced opener closer children =>
    have hz : zeroed keep (.fenced opener closer children) = nought := by rw [zeroed, if_pos h]
    refine ⟨?_, ?_, ?_⟩
    · rw [resolved_omitted h]
      exact ⟨rfl, rfl, rfl, by rw [explicit, explicit]; rfl⟩
    · rw [hz]
      exact fragments_nought
    · rw [resolved_omitted h]
      exact fragments_zero
  | _ => cases h

theorem divided_fraction (ha : Decided keep a) (hb : Decided keep b)
    (hpa : Divided suffix keep a pa) (hpb : Divided suffix keep b pb) :
    Divided suffix keep (.fraction a b) (grouped pa ++ .both (.text "/") :: grouped pb) := by
  have hr := resolved_fraction ha hb
  refine ⟨?_, ?_, ?_⟩
  · rw [hr]
    exact ⟨rfl, rfl, rfl, by rw [explicit, explicit]; rfl⟩
  · rw [zeroed, explicit, fragments, hpa.full, hpb.full]
    simp [Piece.full]
  · rw [hr, explicit, fragments, hpa.short, hpb.short]
    simp [Piece.short]

theorem divided_sup (ha : Decided keep a) (hb : Decided keep b)
    (hz : (zeroed keep b).explicit.isAsterisk = false)
    (hn : (resolved keep b).explicit.isAsterisk = false)
    (hpa : Divided suffix keep a pa) (hpb : Divided suffix keep b pb) :
    Divided suffix keep (.sup a b) (grouped pa ++ .both (.text "**") :: grouped pb) := by
  have hr := resolved_sup ha hb
  refine ⟨?_, ?_, ?_⟩
  · rw [hr]
    exact ⟨rfl, rfl, rfl, by rw [explicit, explicit]; rfl⟩
  · rw [zeroed, explicit, fragments, hz, hpa.full, hpb.full]
    simp [Piece.full]
  · rw [hr, explicit, fragments, hn, hpa.short, hpb.short]
    simp [Piece.short]

theorem divided_root (hs : ∀ s ∈ ss, Decided keep s.node)
    (hd : ∀ s ∈ ss, Divided suffix keep s.node s.pieces) (hl : left keep ss ≠ []) :
    Divided suffix keep (.root (ss.map Sibling.node))
      (grouped (joinPieces false false (arrangement keep ss)) ++
        [Piece.both (Fragment.text "**"), Piece.both (Fragment.text "0.5")]) := by
  have hr := resolved_root hs hl
  obtain ⟨hfull, hshort⟩ : codeBy suffix (zeroed keep) false false _ = _ ∧ _ :=
    join_arrangement hd hl
  have hcode {ns : List Node} {f : Node → Node}
      (hall : ∀ n ∈ ns, ∃ fs, fragments suffix (f n).explicit = .ok fs) :
      fragments suffix (explicit (.root (ns.map f))) =
        .ok (parenthesized (codeBy suffix f false false ns) ++
          [Fragment.text "**", .text "0.5"]) := by
    obtain ⟨parts, hparts, hcode⟩ := @fragmentsEach_joinIf suffix false _
      (List.forall_mem_map.2 (compiled_visible hall)) none
    rw [joinIf, if_neg Bool.false_ne_true] at hparts
    rw [explicit, explicitAll_eq, fragments, hparts]
    simp only [hcode]
    rfl
  refine ⟨?_, ?_, ?_⟩
  · rw [hr]
    exact ⟨rfl, rfl, rfl, by rw [explicit, explicit]; rfl⟩
  · rw [zeroed, zeroedAll_eq, hcode (compiled_full hd), hfull]
    simp [Piece.full]
  · rw [hr, hcode fun n hn => (left_fits hd hn).2, hshort]
    simp [Piece.short]

theorem divided_same (hf : Fits (resolved keep n) n) (h : samePieces suffix keep n = some ps) :
    Divided suffix keep n ps := by
  rw [samePieces] at h
  split at h
  · rename_i fs gs hz hr
    split at h
    · rename_i he
      cases h
      subst he
      exact ⟨hf, by rw [hz, fullCode_both], by rw [hr, shortCode_both]⟩
    · cases h
  · cases h

theorem siblings_cons {n : Node} (h : siblings suffix keep (n :: ns) = some ss) :
    ∃ ps rest, pieces suffix keep n = some ps ∧ siblings suffix keep ns = some rest ∧
      ss = ⟨n, ps⟩ :: rest := by
  rw [siblings] at h
  split at h
  · cases h
    exact ⟨_, _, ‹_›, ‹_›, rfl⟩
  · cases h

mutual

/-- The pieces of a formula are those of its code, and of the code of the pruned formula. -/
theorem divided : ∀ (n : Node), Decided keep n → ∀ {ps : List (Piece Fragment)},
    pieces suffix keep n = some ps → Divided suffix keep n ps
  | .row children, hn, ps, h => by
    rw [pieces] at h
    split at h
    · cases h
    · rename_i ss hss
      obtain ⟨rfl, hs, hd⟩ := divided_siblings children (decidedAll_iff.1 hn) hss
      exact divided_row hs hd h
  | .fenced opener closer children, hn, ps, h => by
    rw [pieces] at h
    split at h
    · cases h
      exact divided_omitted ‹_›
    · rename_i ho
      have ho : isOmitted keep (.fenced opener closer children) = false := by simpa using ho
      split at h
      · cases h
      · rename_i ss hss
        obtain ⟨rfl, hs, hd⟩ := divided_siblings children (decidedAll_iff.1 (hn.2 ho)) hss
        split at h
        · obtain ⟨qs, hqs, rfl⟩ := Option.map_eq_some_iff.1 h
          exact divided_group ‹_› hn ho hs hd hqs
        · rename_i hopt
          split at h
          · cases h
            exact divided_fenced (Bool.eq_false_iff.2 hopt) ‹_› hs hd
          · cases h
  | .fraction a b, hn, ps, h => by
    rw [pieces] at h
    split at h
    · cases h
      exact divided_fraction hn.1 hn.2 (divided a hn.1 ‹_›) (divided b hn.2 ‹_›)
    · cases h
  | .sup a b, hn, ps, h => by
    rw [pieces] at h
    split at h
    · refine divided_same ?_ h
      rw [resolved_sup hn.1 hn.2]
      exact ⟨rfl, rfl, rfl, by rw [explicit, explicit]; rfl⟩
    · rename_i hstar
      simp only [Bool.or_eq_true, not_or, Bool.not_eq_true] at hstar
      split at h
      · cases h
        exact divided_sup hn.1 hn.2 hstar.1 hstar.2 (divided a hn.1 ‹_›) (divided b hn.2 ‹_›)
      · cases h
  | .root children, hn, ps, h => by
    rw [pieces] at h
    split at h
    · cases h
    · rename_i ss hss
      obtain ⟨rfl, hs, hd⟩ := divided_siblings children (decidedAll_iff.1 hn) hss
      split at h
      · cases h
      · rename_i hl
        cases h
        exact divided_root hs hd (by simpa using hl)
  | .sub _ _, _, _, h => divided_same (.refl _) h
  | .identifier _, _, _, h => divided_same (.refl _) h
  | .number _, _, _, h => divided_same (.refl _) h
  | .operator _, _, _, h => divided_same (.refl _) h
  | .space _, _, _, h => divided_same (.refl _) h
  | .text _, _, _, h => divided_same (.refl _) h
  | .unknown _, _, _, h => divided_same (.refl _) h

theorem divided_siblings : ∀ (ns : List Node), (∀ n ∈ ns, Decided keep n) →
    ∀ {ss : List Sibling}, siblings suffix keep ns = some ss → ss.map Sibling.node = ns ∧
      (∀ s ∈ ss, Decided keep s.node) ∧ ∀ s ∈ ss, Divided suffix keep s.node s.pieces
  | [], _, ss, h => by
    cases h
    exact ⟨rfl, by simp, by simp⟩
  | n :: ns, hn, ss, h => by
    obtain ⟨ps, rest, hps, hrest, rfl⟩ := siblings_cons h
    obtain ⟨hn, hns⟩ := List.forall_mem_cons.1 hn
    obtain ⟨hnodes, hs, hd⟩ := divided_siblings ns hns hrest
    exact ⟨congrArg (n :: ·) hnodes, List.forall_mem_cons.2 ⟨hn, hs⟩,
      List.forall_mem_cons.2 ⟨divided n hn hps, hd⟩⟩

end

end Divided

end Node

end Formula

end Kinetics
