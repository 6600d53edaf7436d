import Kinetics.Proofs.Formula.Star

/-!
# Kinetics.Proofs.Formula.Seams

What stands among siblings as one operand, seen against what it is made of (`Bundles`). It is
emitted as its parts are, but signs of multiplication are put around it as a whole: in front of it
when a factor ends there, and behind it when one starts there, whatever its parts start and end
with. Its parts have signs at the same two ends as they start and end a factor themselves. The code
is that of the siblings in front, the parts, and the siblings behind, with these signs between them
(`seamed`); so the operand is as good as its parts if the signs are the same, and otherwise differs
in the signs at its ends and in nothing else (`Bundles.compile`). `seams` counts them.
-/

namespace Kinetics

namespace Formula

namespace Node

variable {suffix : String} {x : Node} {ns us vs before inner after : List Node}

section Sides

/-- The siblings that are neither spaces nor unknown. -/
def essential (ns : List Node) : List Node :=
  ns.filter fun n => !n.isSpace && !n.isUnknown

/-- Whether the last of the siblings ends a factor. -/
def endsFactor (ns : List Node) : Bool :=
  (essential ns).getLast?.any closesFactor

/-- Whether the first of the siblings starts a factor. -/
def startsFactor (ns : List Node) : Bool :=
  (essential ns).head?.any fun n => n.explicit.opensFactor

/-- The signs that stand around an operand and would not stand around its parts: in front of it
and behind it. -/
def seams (before inner after : List Node) : Nat :=
  (endsFactor before && !startsFactor inner).toNat +
    (startsFactor after && !endsFactor (before ++ inner)).toNat

/-- Whether signs of multiplication stand at the two ends of an operand. -/
structure Signs where
  front : Bool
  back : Bool
  deriving DecidableEq

/-- The signs around an operand: a factor ends in front of it, or starts behind it. -/
def Signs.around (before after : List Node) : Signs :=
  ⟨endsFactor before, startsFactor after⟩

/-- The signs at the same ends around its parts, which start and end a factor, or do not. -/
def Signs.within (before inner after : List Node) : Signs :=
  ⟨endsFactor before && startsFactor inner, endsFactor (before ++ inner) && startsFactor after⟩

theorem visible_append (us vs : List Node) : visible (us ++ vs) = visible us ++ visible vs :=
  List.filter_append ..

theorem essential_explicitAll (ns : List Node) :
    (explicitAll ns).filter (fun n => !n.isUnknown) = (essential ns).map explicit := by
  rw [explicitAll_eq, List.filter_map, essential, visible, List.filter_filter]
  congr 2
  funext n
  simp [explicit_isUnknown, Bool.and_comm]

theorem foldl_after (b : Option Node) (ns : List Node) :
    ns.foldl Node.after b = (ns.filter fun n => !n.isUnknown).getLast?.or b := by
  induction ns generalizing b with
  | nil => rfl
  | cons n ns ih =>
    rw [List.foldl_cons, ih, List.filter_cons, Node.after]
    cases n.isUnknown with
    | true => rfl
    | false => cases hl : (ns.filter fun n => !n.isUnknown) <;> simp [List.getLast?_cons]

/-- A factor ends in front of what follows the siblings if the last of them ends one. -/
theorem closes_explicitAll (ns : List Node) :
    ((explicitAll ns).foldl Node.after none).any closesFactor = endsFactor ns := by
  rw [foldl_after, essential_explicitAll, List.getLast?_map, Option.or_none, endsFactor]
  cases (essential ns).getLast? with
  | none => rfl
  | some n => exact explicit_closesFactor n

/-- A sign of multiplication, or none. -/
def starIf (b : Bool) : List Node :=
  if b then [.operator "*"] else []

theorem joinIf_start (ns : List Node) : ∃ pre post, (∀ n ∈ pre, n.isUnknown = true) ∧
    ∀ b : Option Node, joinIf true b ns = pre ++ (starIf (b.any closesFactor &&
      (ns.filter fun n => !n.isUnknown).head?.any opensFactor) ++ post) := by
  induction ns with
  | nil => exact ⟨[], [], List.forall_mem_nil _, fun b => by simp [joinIf, joinAfter, starIf]⟩
  | cons n ns ih =>
    cases hn : n.isUnknown with
    | true =>
      obtain ⟨pre, post, hpre, hjoin⟩ := ih
      refine ⟨n :: pre, post, List.forall_mem_cons.2 ⟨hn, hpre⟩, fun b => ?_⟩
      have hopen : n.opensFactor = false := by
        cases n with
        | unknown _ => rfl
        | _ => cases hn
      rw [joinIf_cons, Node.after, if_pos hn, hjoin]
      simp [hn, hopen]
    | false =>
      refine ⟨[], n :: joinIf true (some n) ns, List.forall_mem_nil _, fun b => ?_⟩
      rw [joinIf_cons, Node.after, hn]
      simp [starIf, hn]

/-- Joined siblings, of which only the sign in front of the first factor depends on what stands
before them. -/
theorem joinIf_explicitAll (ns : List Node) : ∃ pre post, (∀ n ∈ pre, n.isUnknown = true) ∧
    ∀ b : Option Node, joinIf true b (explicitAll ns) =
      pre ++ (starIf (b.any closesFactor && startsFactor ns) ++ post) := by
  obtain ⟨pre, post, hpre, hjoin⟩ := joinIf_start (explicitAll ns)
  refine ⟨pre, post, hpre, fun b => ?_⟩
  rw [hjoin, essential_explicitAll, List.head?_map, startsFactor]
  cases (essential ns).head? <;> rfl

end Sides

section Code

/-- One code behind another. -/
def followed (r r' : Except Fault (List Fragment)) : Except Fault (List Fragment) :=
  match r, r' with
  | .error e, _ => .error e
  | .ok _, .error e => .error e
  | .ok fs, .ok gs => .ok (fs ++ gs)

theorem followed_nil (r : Except Fault (List Fragment)) : followed (.ok []) r = r := by
  cases r <;> rfl

theorem followed_assoc (r r' r'' : Except Fault (List Fragment)) :
    followed (followed r r') r'' = followed r (followed r' r'') := by
  cases r <;> cases r' <;> cases r'' <;> simp [followed]

theorem rowCode_cons (n : Node) (ns : List Node) : rowCode suffix none (n :: ns) =
    followed (fragments suffix n) (rowCode suffix none ns) := by
  rw [rowCode, rowCode, fragmentsEach]
  cases fragments suffix n with
  | error e => rfl
  | ok fs => cases fragmentsEach suffix ns <;> rfl

theorem rowCode_append (us vs : List Node) : rowCode suffix none (us ++ vs) =
    followed (rowCode suffix none us) (rowCode suffix none vs) := by
  induction us with
  | nil => exact (followed_nil _).symm
  | cons u us ih => rw [List.cons_append, rowCode_cons, rowCode_cons, ih, followed_assoc]

/-- The code of a sign of multiplication, or none. -/
def signCode (b : Bool) : List Fragment :=
  if b then [.text "*"] else []

/-- What a sign of multiplication gives to a name. -/
def signName (b : Bool) : String :=
  if b then "_" else ""

theorem rowCode_starIf (b : Bool) : rowCode suffix none (starIf b) = .ok (signCode b) := by
  cases b with
  | false => rfl
  | true =>
    rw [starIf, if_pos rfl, rowCode_cons, fragments_star]
    rfl

theorem compoundNames_starIf (b : Bool) : compoundNames (starIf b) = signName b := by
  cases b with
  | false => rfl
  | true => decide +kernel

theorem rowCode_unknown (h : ∀ n ∈ ns, n.isUnknown = true) : rowCode suffix none ns = .ok [] := by
  induction ns with
  | nil => rfl
  | cons n ns ih =>
    obtain ⟨hn, hns⟩ := List.forall_mem_cons.1 h
    rw [rowCode_cons, ih hns]
    cases n with
    | unknown tag => rfl
    | _ => cases hn

theorem compoundNames_unknown (h : ∀ n ∈ ns, n.isUnknown = true) : compoundNames ns = "" := by
  induction ns with
  | nil => rfl
  | cons n ns ih =>
    obtain ⟨hn, hns⟩ := List.forall_mem_cons.1 h
    rw [compoundNames, ih hns]
    cases n with
    | unknown tag => rfl
    | _ => cases hn

theorem skippedAmong_starIf (b : Bool) : skippedAmong (starIf b) = [] := by
  cases b <;> rfl

/-- The code of siblings that are factors. -/
def siblingsCode (suffix : String) (ns : List Node) : Except Fault (List Fragment) :=
  (fragmentsEach suffix (joinFactors (explicitAll ns))).map List.flatten

/-- The name of siblings that are factors. -/
def siblingsName (ns : List Node) : String :=
  compoundNames (joinFactors (explicitAll ns))

theorem siblingsCode_eq (ns : List Node) :
    siblingsCode suffix ns = rowCode suffix none (joinIf true none (explicitAll ns)) := rfl

theorem siblingsName_eq (ns : List Node) :
    siblingsName ns = compoundNames (joinIf true none (explicitAll ns)) := rfl

/-- Siblings in front, an operand and siblings behind, with signs of multiplication at the two ends
of the operand. -/
def seamed (suffix : String) (before inner after : List Node) (g : Signs) : Excerpt where
  code := followed (siblingsCode suffix before) (followed (.ok (signCode g.front))
    (followed (siblingsCode suffix inner) (followed (.ok (signCode g.back))
      (siblingsCode suffix after))))
  name := siblingsName before ++ (signName g.front ++ (siblingsName inner ++
    (signName g.back ++ siblingsName after)))

end Code

section Operand

/-- A node that is an operand among its siblings and is emitted as the given nodes are. -/
structure Bundles (suffix : String) (x : Node) (inner : List Node) : Prop where
  space : x.isSpace = false
  unknown : x.isUnknown = false
  operator : x.operator? = none
  opens : x.explicit.opensFactor = true
  name : compoundName x = compoundNames inner
  skipped : skippedTags x = skippedAmong inner
  explicitName : compoundName x.explicit = compoundNames (joinIf true none (explicitAll inner))
  explicitSkipped : skippedTags x.explicit = skippedAmong (joinIf true none (explicitAll inner))
  code : fragments suffix x.explicit = rowCode suffix none (joinIf true none (explicitAll inner))

/-- The joined siblings with an operand among them, and with its parts in its place. -/
theorem Bundles.joined (h : Bundles suffix x inner) (before after : List Node) :
    ∃ pre post pre' post', (∀ n ∈ pre, n.isUnknown = true) ∧ (∀ n ∈ pre', n.isUnknown = true) ∧
      joinIf true none (explicitAll inner) = pre ++ post ∧
      joinIf true none (explicitAll after) = pre' ++ post' ∧
      joinIf true none (explicitAll (before ++ x :: after)) =
        joinIf true none (explicitAll before) ++ (starIf (endsFactor before) ++
          x.explicit :: (pre' ++ (starIf (startsFactor after) ++ post'))) ∧
      joinIf true none (explicitAll (before ++ inner ++ after)) =
        joinIf true none (explicitAll before) ++ (pre ++
          (starIf (endsFactor before && startsFactor inner) ++ (post ++ (pre' ++
            (starIf (endsFactor (before ++ inner) && startsFactor after) ++ post'))))) := by
  obtain ⟨pre, post, hpre, hinner⟩ := joinIf_explicitAll inner
  obtain ⟨pre', post', hpre', hafter⟩ := joinIf_explicitAll after
  refine ⟨pre, post, pre', post', hpre, hpre', ?_, ?_, ?_, ?_⟩
  · simpa [starIf] using hinner none
  · simpa [starIf] using hafter none
  · have hclose : (some x.explicit).any closesFactor = true := by
      rw [Option.any_some, explicit_closesFactor, closesFactor_eq, h.operator, Option.all_none]
    rw [explicitAll_append, explicitAll, if_neg (by simp [h.space]), joinIf_append, joinIf_cons,
      closes_explicitAll, h.opens, Node.after, explicit_isUnknown, h.unknown, hafter]
    simp [hclose, starIf]
  · rw [explicitAll_append, joinIf_append, hafter, closes_explicitAll, explicitAll_append,
      joinIf_append, hinner, closes_explicitAll]
    simp only [List.append_assoc]

/-- The codes of the two rows, end by end. -/
theorem Bundles.rowCode (h : Bundles suffix x inner) (before after : List Node) :
    Node.rowCode suffix none (joinIf true none (explicitAll (before ++ x :: after))) =
        (seamed suffix before inner after (.around before after)).code ∧
      Node.rowCode suffix none (joinIf true none (explicitAll (before ++ inner ++ after))) =
        (seamed suffix before inner after (.within before inner after)).code := by
  obtain ⟨pre, post, pre', post', hpre, hpre', hinner, hafter, hx, hf⟩ := h.joined before after
  constructor
  · simp only [seamed, siblingsCode_eq, Signs.around, hx, rowCode_append, rowCode_cons,
      rowCode_starIf, h.code, hafter, rowCode_unknown hpre', followed_nil]
  · simp only [seamed, siblingsCode_eq, Signs.within, hf, rowCode_append, rowCode_starIf, hinner,
      hafter, rowCode_unknown hpre, rowCode_unknown hpre', followed_nil]

/-- The names of the two rows, end by end. -/
theorem Bundles.rowName (h : Bundles suffix x inner) (before after : List Node) :
    compoundNames (joinIf true none (explicitAll (before ++ x :: after))) =
        (seamed suffix before inner after (.around before after)).name ∧
      compoundNames (joinIf true none (explicitAll (before ++ inner ++ after))) =
        (seamed suffix before inner after (.within before inner after)).name := by
  obtain ⟨pre, post, pre', post', hpre, hpre', hinner, hafter, hx, hf⟩ := h.joined before after
  constructor
  · simp only [seamed, siblingsName_eq, Signs.around, hx, compoundNames_append, compoundNames,
      compoundNames_starIf, h.explicitName, hafter, compoundNames_unknown hpre',
      String.empty_append]
  · simp only [seamed, siblingsName_eq, Signs.within, hf, compoundNames_append,
      compoundNames_starIf, hinner, hafter, compoundNames_unknown hpre,
      compoundNames_unknown hpre', String.empty_append]

/-- With signs or without, the code is there for the same siblings. -/
theorem exists_leaves_seamed (g g' : Signs) : ∃ fs gs,
    (seamed suffix before inner after g).Leaves suffix (seamed suffix before inner after g') fs gs ∧
      Exchanged false fs gs (seamed suffix before inner after g).code
        (seamed suffix before inner after g').code := by
  have hcode (g : Signs) : (∃ e, ∀ g, (seamed suffix before inner after g).code = .error e) ∨
      ∃ fs, (seamed suffix before inner after g).code = .ok fs := by
    simp only [seamed]
    cases siblingsCode suffix before with
    | error e => exact .inl ⟨e, fun _ => rfl⟩
    | ok _ =>
      cases siblingsCode suffix inner with
      | error e => exact .inl ⟨e, fun _ => rfl⟩
      | ok _ =>
        cases siblingsCode suffix after with
        | error e => exact .inl ⟨e, fun _ => rfl⟩
        | ok _ => exact .inr ⟨_, rfl⟩
  rcases hcode g with ⟨e, he⟩ | ⟨fs, hfs⟩
  · rw [he, he]
    exact ⟨_, _, .name "" "", .fault e⟩
  · rcases hcode g' with ⟨e, he⟩ | ⟨gs, hgs⟩
    · rw [he] at hfs
      cases hfs
    · rw [hfs, hgs]
      exact ⟨fs, gs, .code hfs hgs, exchanged_here fs gs⟩

theorem Bundles.rowSkipped (h : Bundles suffix x inner) (before after : List Node) :
    skippedAmong (joinIf true none (explicitAll (before ++ x :: after))) =
      skippedAmong (joinIf true none (explicitAll (before ++ inner ++ after))) := by
  obtain ⟨pre, post, pre', post', -, -, hinner, -, hx, hf⟩ := h.joined before after
  rw [hx, hf]
  simp only [skippedAmong_append, skippedAmong, h.explicitSkipped, hinner, skippedAmong_starIf,
    List.append_assoc, List.nil_append]

end Operand

section Count

theorem starsIn_signCode (b : Bool) : starsIn (signCode b) = b.toNat := by
  cases b with
  | false => rfl
  | true => decide +kernel

theorem stars_signName (b : Bool) : stars (signName b) = b.toNat := by
  cases b <;> rfl

theorem seams_add (before inner after : List Node) :
    (endsFactor before).toNat + (startsFactor after).toNat =
      (endsFactor before && startsFactor inner).toNat +
        (endsFactor (before ++ inner) && startsFactor after).toNat + seams before inner after := by
  unfold seams
  cases endsFactor before <;> cases startsFactor inner <;> cases startsFactor after <;>
    cases endsFactor (before ++ inner) <;> rfl

theorem ok_of_followed {r r' : Except Fault (List Fragment)} {z : List Fragment}
    (h : followed r r' = .ok z) : ∃ fs gs, r = .ok fs ∧ r' = .ok gs ∧ z = fs ++ gs := by
  cases r with
  | error e => cases h
  | ok fs =>
    cases r' with
    | error e => cases h
    | ok gs =>
      cases h
      exact ⟨fs, gs, rfl, rfl, rfl⟩

/-- The stars of code with signs at two ends are those of the signs and those of the rest. -/
theorem starsIn_seamed {g : Signs} {fs : List Fragment}
    (h : (seamed suffix before inner after g).code = .ok fs) :
    ∃ front middle back, siblingsCode suffix before = .ok front ∧
      siblingsCode suffix inner = .ok middle ∧ siblingsCode suffix after = .ok back ∧
      starsIn fs = starsIn front + starsIn middle + starsIn back + g.front.toNat +
        g.back.toNat := by
  obtain ⟨front, r, hfront, hr, rfl⟩ := ok_of_followed h
  obtain ⟨_, r', ⟨⟩, hr', rfl⟩ := ok_of_followed hr
  obtain ⟨middle, r'', hmiddle, hr'', rfl⟩ := ok_of_followed hr'
  obtain ⟨_, back, ⟨⟩, hback, rfl⟩ := ok_of_followed hr''
  refine ⟨front, middle, back, hfront, hmiddle, hback, ?_⟩
  simp only [starsIn_append, starsIn_signCode]
  omega

/-- Signs at the ends of an operand that its parts do not have are stars in the code. -/
theorem heavier_of_differs {r r' : Except Fault Expression}
    (h : (seamed suffix before inner after (.around before after)).Differs suffix
      (seamed suffix before inner after (.within before inner after)) r r') :
    Heavier (seams before inner after) r r' := by
  have hadd := seams_add before inner after
  refine h.heavier (fun fs gs hfs hgs => ?_) ?_
  · obtain ⟨front, middle, back, hfront, hmiddle, hback, hcount⟩ := starsIn_seamed hfs
    obtain ⟨_, _, _, hfront', hmiddle', hback', hcount'⟩ := starsIn_seamed hgs
    cases hfront.symm.trans hfront'
    cases hmiddle.symm.trans hmiddle'
    cases hback.symm.trans hback'
    simp only [Signs.around, Signs.within] at hcount hcount'
    omega
  · simp only [seamed, Signs.around, Signs.within, stars_append, stars_signName]
    omega

end Count

section Rows

theorem headKeyword?_of_visible (h : headKeyword? (visible ns) = none) : headKeyword? ns = none := by
  cases hk : headKeyword? ns with
  | none => rfl
  | some k => cases (headKeyword?_visible hk).symm.trans h

/-- A row that is no call form. -/
theorem explicit_row_none (h : headKeyword? (visible ns) = none) :
    explicit (.row ns) = .row (joinIf true none (explicitAll ns)) := by
  rw [explicit_row_eq, Node.joined, headKeyword?_of_visible h]
  rfl

theorem fragments_row_none (h : headKeyword? (visible ns) = none) :
    fragments suffix (explicit (.row ns)) =
      rowCode suffix none (joinIf true none (explicitAll ns)) := by
  rw [fragments_row, h, Node.joined, headKeyword?_of_visible h]
  rfl

theorem kin_rows (hu : headKeyword? (visible us) = none) (hv : headKeyword? (visible vs) = none) :
    Kin (.row us) (.row vs) ∧ Kin (explicit (.row us)) (explicit (.row vs)) := by
  refine ⟨⟨rfl, rfl, ?_⟩, isInner_explicit rfl, isInner_explicit rfl, ?_⟩
  · rw [opensFactor, opensFactor, headKeyword?_of_visible hu, headKeyword?_of_visible hv]
  · rw [opensFactor_row, opensFactor_row, hu, hv]

theorem isAsterisk_two (h : 2 ≤ ns.length) : isAsterisk (.row ns) = false := by
  match ns, h with
  | _ :: _ :: _, _ => rfl

theorem Bundles.head (h : Bundles suffix x inner)
    (hcall : headKeyword? (visible (before ++ inner ++ after)) = none) :
    headKeyword? (visible (before ++ x :: after)) = none := by
  rw [visible_append]
  rw [visible_append, visible_append, List.append_assoc] at hcall
  cases hb : visible before with
  | nil =>
    have hx : visible (x :: after) = x :: visible after := by
      rw [visible, List.filter_cons_of_pos (by simp [h.space])]
      rfl
    rw [List.nil_append, hx, headKeyword?_cons, h.operator]
    rfl
  | cons b bs =>
    rw [hb, List.cons_append, headKeyword?_cons] at hcall
    rw [List.cons_append, headKeyword?_cons, hcall]

/-- What a row with an operand among its children and the row with its parts instead share. -/
theorem Bundles.peers (h : Bundles suffix x inner)
    (hcall : headKeyword? (visible (before ++ inner ++ after)) = none)
    (hstar : isAsterisk (.row (before ++ x :: after)) =
      isAsterisk (.row (before ++ inner ++ after))) :
    Peers (.row (before ++ x :: after)) (.row (before ++ inner ++ after)) := by
  refine ⟨rfl, rfl, (kin_rows (h.head hcall) hcall).1.opens, ?_, hstar, ?_⟩
  · simp only [compoundName, compoundNames_append, compoundNames, h.name, String.append_assoc]
  · simp only [skippedTags, skippedAmong_append, skippedAmong, h.skipped, List.append_assoc]

/-- With the same signs, the two rows are as good as each other. -/
theorem Bundles.agree (h : Bundles suffix x inner)
    (hcall : headKeyword? (visible (before ++ inner ++ after)) = none)
    (hraw : isAsterisk (.row (before ++ x :: after)) = isAsterisk (.row (before ++ inner ++ after)))
    (hstar : (explicit (.row (before ++ x :: after))).isAsterisk =
      (explicit (.row (before ++ inner ++ after))).isAsterisk)
    (hsigns : Signs.around before after = .within before inner after) :
    Agree (.row (before ++ x :: after)) (.row (before ++ inner ++ after)) := by
  obtain ⟨hname, hname'⟩ := h.rowName before after
  have hkin := (kin_rows (h.head hcall) hcall).2
  refine ⟨h.peers hcall hraw, hkin.left, hkin.right, hkin.opens, ?_, hstar, ?_⟩
  · rw [explicit_row_none hcall, explicit_row_none (h.head hcall), compoundName, compoundName,
      hname, hname', hsigns]
  · rw [explicit_row_none hcall, explicit_row_none (h.head hcall), skippedTags, skippedTags,
      h.rowSkipped before after]

/-- With a sign next to the operand that its parts do not have, the rows differ at the ends. -/
theorem Bundles.variants (h : Bundles suffix x inner)
    (hcall : headKeyword? (visible (before ++ inner ++ after)) = none)
    (hstar : (explicit (.row (before ++ x :: after))).isAsterisk =
      (explicit (.row (before ++ inner ++ after))).isAsterisk)
    (hsigns : Signs.around before after ≠ .within before inner after) :
    Variants suffix (seamed suffix before inner after (.around before after))
      (seamed suffix before inner after (.within before inner after))
      (.row (before ++ x :: after)) (.row (before ++ inner ++ after)) := by
  have hleft : (explicit (.row (before ++ x :: after))).isAsterisk = false := by
    -- a sign stands next to the operand
    obtain ⟨-, -, pre', post', -, -, -, -, hx, -⟩ := h.joined before after
    rw [explicit_row_none (h.head hcall), hx]
    apply isAsterisk_two
    cases hb : endsFactor before with
    | true => simp [starIf]; omega
    | false =>
      cases ha : startsFactor after with
      | true => simp [starIf]; omega
      | false => simp [Signs.around, Signs.within, hb, ha] at hsigns
  have hkin := kin_rows (h.head hcall) hcall
  obtain ⟨hname, hname'⟩ := h.rowName before after
  obtain ⟨hcode, hcode'⟩ := h.rowCode before after
  refine ⟨hkin.1, hkin.2, hleft, hstar.symm.trans hleft, ?_, ⟨"", "", ?_, ?_⟩, ?_⟩
  · rw [explicit_row_none hcall, explicit_row_none (h.head hcall), skippedTags, skippedTags,
      h.rowSkipped before after]
  · rw [explicit_row_none (h.head hcall), compoundName, hname]
    simp
  · rw [explicit_row_none hcall, compoundName, hname']
    simp
  · rw [fragments_row_none hcall, fragments_row_none (h.head hcall), hcode, hcode']
    exact exists_leaves_seamed _ _

/-- The code of a formula with an operand somewhere in it, and with its parts in its place. -/
theorem Bundles.compile (h : Bundles suffix x inner)
    (hcall : headKeyword? (visible (before ++ inner ++ after)) = none)
    (hraw : isAsterisk (.row (before ++ x :: after)) = isAsterisk (.row (before ++ inner ++ after)))
    (hstar : (explicit (.row (before ++ x :: after))).isAsterisk =
      (explicit (.row (before ++ inner ++ after))).isAsterisk) (p : Place) :
    (p.inSubscript = true ∨ Signs.around before after = .within before inner after →
      (p.fill (.row (before ++ x :: after))).compile suffix =
        (p.fill (.row (before ++ inner ++ after))).compile suffix) ∧
    (p.inSubscript = false → Signs.around before after ≠ .within before inner after →
      (seamed suffix before inner after (.around before after)).Differs suffix
        (seamed suffix before inner after (.within before inner after))
        ((p.fill (.row (before ++ x :: after))).compile suffix)
        ((p.fill (.row (before ++ inner ++ after))).compile suffix)) := by
  constructor
  · rintro (hp | hsigns)
    · exact compile_inSubscript (h.peers hcall hraw) hp
    · refine compile_fill_eq (h.agree hcall hraw hstar hsigns) ?_ p
      obtain ⟨hcode, hcode'⟩ := h.rowCode before after
      rw [fragments_row_none hcall, fragments_row_none (h.head hcall), hcode, hcode', hsigns]
  · exact fun hp hsigns => (h.variants hcall hstar hsigns).compile hp

end Rows

section Sole

/-- Whether there is one sibling, and it has the property. -/
def sole (f : Node → Bool) : List Node → Bool
  | [n] => f n
  | _ => false

theorem sole_two {f : Node → Bool} (h : 2 ≤ ns.length) : sole f ns = false := by
  match ns, h with
  | _ :: _ :: _, _ => rfl

theorem isAsterisk_row (ns : List Node) : isAsterisk (.row ns) = sole isAsterisk ns := by
  match ns with
  | [] => rfl
  | [n] => rw [isAsterisk, sole]
  | _ :: _ :: _ => rfl

theorem sublist_joinIf (joins : Bool) (b : Option Node) (ns : List Node) :
    ns.Sublist (joinIf joins b ns) := by
  induction ns generalizing b with
  | nil => exact List.nil_sublist _
  | cons n ns ih =>
    rw [joinIf_cons]
    exact (ih (Node.after b n)).cons_cons n |>.trans (List.sublist_append_right _ _)

/-- Spaces and signs of multiplication aside, a star stands alone in a row that is one. -/
theorem isAsterisk_explicit_row (ns : List Node) :
    isAsterisk (explicit (.row ns)) = sole (fun n => n.explicit.isAsterisk) (visible ns) := by
  rw [explicit_row_eq, Node.joined, explicitAll_eq]
  cases visible ns with
  | nil => cases joinsRow (headKeyword? ns) <;> rfl
  | cons m vs =>
    cases vs with
    | nil =>
      cases joinsRow (headKeyword? ns) <;>
        simp [joinIf, joinAfter, isAsterisk, sole]
    | cons n vs =>
      rw [sole_two (by simp)]
      apply isAsterisk_two
      have hlength := (sublist_joinIf (joinsRow (headKeyword? ns)) none
        ((m :: n :: vs).map explicit)).length_le
      rw [List.length_map, List.length_cons, List.length_cons] at hlength
      omega

theorem sole_inserted {f : Node → Bool} (hx : f x = false) (us vs : List Node) :
    sole f (us ++ x :: vs) = false := by
  match us, vs with
  | [], [] => exact hx
  | [], _ :: _ => rfl
  | _ :: us, vs =>
    apply sole_two
    simp only [List.cons_append, List.length_cons, List.length_append]
    omega

theorem sole_spliced {f : Node → Bool} (hne : inner ≠ []) (hx : f x = sole f inner)
    (us vs : List Node) : sole f (us ++ x :: vs) = sole f (us ++ (inner ++ vs)) := by
  have hpos := List.length_pos_iff.2 hne
  by_cases hnil : us = [] ∧ vs = []
  · obtain ⟨rfl, rfl⟩ := hnil
    simpa [sole] using hx
  · have hlength : 0 < us.length + vs.length := by
      rw [← List.length_append, List.length_pos_iff]
      simpa using hnil
    rw [sole_two (by simp; omega), sole_two (by simp; omega)]

/-- A formula that is a star is one before signs of multiplication are written in it. -/
theorem isAsterisk_explicit (h : isAsterisk x = true) : x.explicit.isAsterisk = true := by
  have hspace {n : Node} (hn : isAsterisk n = true) : n.isSpace = false := by
    cases n <;> first | rfl | cases hn
  fun_induction isAsterisk x with
  | case1 s => rwa [explicit, isAsterisk]
  | case2 s => rwa [explicit, isAsterisk]
  | case3 s => rwa [explicit, isAsterisk]
  | case4 n ih =>
    have hv : visible [n] = [n] := by simp [visible, hspace h]
    rw [isAsterisk_explicit_row, hv]
    exact ih h
  | case5 => cases h

end Sole

end Node

end Formula

end Kinetics
