import Kinetics.Proofs.Formula.Siblings

/-!
# Kinetics.Proofs.Formula.Place

Formulas with one place left open. Two inner nodes that are named, joined and passed over in the
same way (`Peers`) may stand in the same places: the code around the place does not depend on which
of them it is (`exchanged_fill`). Only within the name of a compound symbol do they leave no code
of their own.
-/

namespace Kinetics

namespace Formula

/-- The nodes with a list of children. -/
inductive Parent where
  | row
  | fenced (opener closer : String)
  | root

def Parent.node : Parent → List Node → Node
  | .row, children => .row children
  | .fenced opener closer, children => .fenced opener closer children
  | .root, children => .root children

/-- The nodes with two parts. -/
inductive Pair where
  | fraction
  | sub
  | sup

def Pair.node : Pair → Node → Node → Node
  | .fraction, a, b => .fraction a b
  | .sub, a, b => .sub a b
  | .sup, a, b => .sup a b

/-- A formula with one place left open. -/
inductive Place where
  | here
  | among (k : Parent) (before : List Node) (p : Place) (after : List Node)
  | first (k : Pair) (p : Place) (second : Node)
  | second (k : Pair) (first : Node) (p : Place)

def Place.fill : Place → Node → Node
  | .here, n => n
  | .among k before p after, n => k.node (before ++ p.fill n :: after)
  | .first k p b, n => k.node (p.fill n) b
  | .second k a p, n => k.node a (p.fill n)

/-- Whether the place lies within the name of a compound symbol if that node stands there. -/
def Place.isNamed (n : Node) : Place → Bool
  | .here => false
  | .among _ _ p _ => p.isNamed n
  | .first .fraction p _ => p.isNamed n
  | .second .fraction _ p => p.isNamed n
  | .first .sub _ _ => true
  | .second .sub _ _ => true
  | .first .sup p b => b.explicit.isAsterisk || p.isNamed n
  | .second .sup _ p => (p.fill n).explicit.isAsterisk || p.isNamed n

namespace Node

variable {suffix : String} {m n : Node} {us vs before after : List Node}

def isInner : Node → Bool
  | .row _ => true
  | .fenced _ _ _ => true
  | .fraction _ _ => true
  | .sub _ _ => true
  | .sup _ _ => true
  | .root _ => true
  | _ => false

theorem operator?_inner (h : n.isInner = true) : n.operator? = none := by
  cases n <;> first | rfl | cases h

theorem isSpace_inner (h : n.isInner = true) : n.isSpace = false := by
  cases n <;> first | rfl | cases h

theorem isUnknown_inner (h : n.isInner = true) : n.isUnknown = false := by
  cases n <;> first | rfl | cases h

theorem isInner_parent (k : Parent) (ns : List Node) : (k.node ns).isInner = true := by
  cases k <;> rfl

theorem isInner_pair (k : Pair) (a b : Node) : (k.node a b).isInner = true := by
  cases k <;> rfl

/-- Inner nodes that are joined in the same way. -/
structure Kin (m n : Node) : Prop where
  left : m.isInner = true
  right : n.isInner = true
  opens : m.opensFactor = n.opensFactor

/-- Inner nodes that are named, joined and passed over in the same way. -/
structure Peers (m n : Node) : Prop where
  left : m.isInner = true
  right : n.isInner = true
  opens : m.opensFactor = n.opensFactor
  name : compoundName m = compoundName n
  asterisk : isAsterisk m = isAsterisk n
  skipped : skippedTags m = skippedTags n

section Peers

theorem Peers.kin (h : Peers m n) : Kin m n :=
  ⟨h.left, h.right, h.opens⟩

theorem Kin.headKeyword? (h : Kin m n) (us vs : List Node) :
    Node.headKeyword? (us ++ m :: vs) = Node.headKeyword? (us ++ n :: vs) := by
  cases us with
  | nil => simp [headKeyword?_cons, operator?_inner h.left, operator?_inner h.right]
  | cons u us => simp [headKeyword?_cons]

theorem Peers.compoundNames (h : Peers m n) (us vs : List Node) :
    Node.compoundNames (us ++ m :: vs) = Node.compoundNames (us ++ n :: vs) := by
  induction us with
  | nil => simp [Node.compoundNames, h.name]
  | cons u us ih => simp [Node.compoundNames, ih]

theorem Peers.skippedAmong (h : Peers m n) (us vs : List Node) :
    Node.skippedAmong (us ++ m :: vs) = Node.skippedAmong (us ++ n :: vs) := by
  induction us with
  | nil => simp [Node.skippedAmong, h.skipped]
  | cons u us ih => simp [Node.skippedAmong, ih]

theorem Peers.asterisk_row (h : Peers m n) (us vs : List Node) :
    isAsterisk (.row (us ++ m :: vs)) = isAsterisk (.row (us ++ n :: vs)) := by
  cases us with
  | nil =>
    cases vs with
    | nil => simpa [isAsterisk] using h.asterisk
    | cons v vs => rfl
  | cons u us => cases us <;> rfl

theorem Kin.among (h : Kin m n) (k : Parent) (us vs : List Node) :
    Kin (k.node (us ++ m :: vs)) (k.node (us ++ n :: vs)) := by
  refine ⟨isInner_parent _ _, isInner_parent _ _, ?_⟩
  cases k with
  | row => simp only [Parent.node, opensFactor, h.headKeyword? us vs]
  | _ => rfl

theorem Kin.pair (k : Pair) (a b a' b' : Node) : Kin (k.node a b) (k.node a' b') :=
  ⟨isInner_pair _ _ _, isInner_pair _ _ _, by cases k <;> rfl⟩

/-- Peers with the same siblings. -/
theorem Peers.among (h : Peers m n) (k : Parent) (us vs : List Node) :
    Peers (k.node (us ++ m :: vs)) (k.node (us ++ n :: vs)) := by
  refine ⟨isInner_parent _ _, isInner_parent _ _, (h.kin.among k us vs).opens, ?_, ?_, ?_⟩
  · cases k <;> simp only [Parent.node, compoundName, h.compoundNames us vs]
  · cases k with
    | row => exact h.asterisk_row us vs
    | _ => rfl
  · cases k <;> simp only [Parent.node, skippedTags, h.skippedAmong us vs]

theorem Peers.first (h : Peers m n) (k : Pair) (b : Node) : Peers (k.node m b) (k.node n b) := by
  refine ⟨isInner_pair _ _ _, isInner_pair _ _ _, ?_, ?_, ?_, ?_⟩
  · cases k <;> rfl
  · cases k <;> simp only [Pair.node, compoundName, h.name]
  · cases k <;> rfl
  · cases k <;> simp only [Pair.node, skippedTags, h.skipped]

theorem Peers.second (h : Peers m n) (k : Pair) (a : Node) : Peers (k.node a m) (k.node a n) := by
  refine ⟨isInner_pair _ _ _, isInner_pair _ _ _, ?_, ?_, ?_, ?_⟩
  · cases k <;> rfl
  · cases k <;> simp only [Pair.node, compoundName, h.name, h.asterisk]
  · cases k <;> rfl
  · cases k <;> simp only [Pair.node, skippedTags, h.skipped, h.asterisk]

end Peers

section Explicit

theorem explicitAll_around (h : m.isInner = true) (us vs : List Node) :
    explicitAll (us ++ m :: vs) = explicitAll us ++ m.explicit :: explicitAll vs := by
  simp [explicitAll_eq, visible, isSpace_inner h]

theorem joinIf_append (joins : Bool) (b : Option Node) (us vs : List Node) :
    joinIf joins b (us ++ vs) = joinIf joins b us ++ joinIf joins (us.foldl Node.after b) vs := by
  induction us generalizing b with
  | nil => cases joins <;> rfl
  | cons u us ih =>
    rw [List.cons_append, joinIf_cons, joinIf_cons, ih, List.foldl_cons]
    simp

/-- Signs of multiplication between siblings of which one is exchanged. -/
theorem joinIf_around (h : Kin m n) (joins : Bool) (us vs : List Node) : ∃ us' vs',
    joinIf joins none (us ++ m :: vs) = us' ++ m :: vs' ∧
      joinIf joins none (us ++ n :: vs) = us' ++ n :: vs' := by
  have hclose : (Node.after (us.foldl Node.after none) m).any closesFactor =
      (Node.after (us.foldl Node.after none) n).any closesFactor := by
    simp [Node.after, isUnknown_inner h.left, isUnknown_inner h.right, closesFactor_eq,
      operator?_inner h.left, operator?_inner h.right]
  rw [joinIf_append, joinIf_append, joinIf_cons, joinIf_cons, h.opens, joinIf_congr hclose]
  exact ⟨_, _, (List.append_assoc _ _ _).symm, (List.append_assoc _ _ _).symm⟩

theorem explicit_around (h : Kin m n) (he : Kin m.explicit n.explicit) (k : Parent)
    (before after : List Node) : ∃ us vs,
      (k.node (before ++ m :: after)).explicit = k.node (us ++ m.explicit :: vs) ∧
        (k.node (before ++ n :: after)).explicit = k.node (us ++ n.explicit :: vs) := by
  have hm := explicitAll_around h.left before after
  have hn := explicitAll_around h.right before after
  cases k with
  | row =>
    simp only [Parent.node, explicit_row_eq, joined, h.headKeyword? before after, hm, hn]
    obtain ⟨us, vs, hus, hvs⟩ := joinIf_around he
      (joinsRow (Node.headKeyword? (before ++ n :: after))) (explicitAll before) (explicitAll after)
    exact ⟨us, vs, by rw [hus], by rw [hvs]⟩
  | fenced opener closer =>
    exact ⟨explicitAll before, explicitAll after, by simp only [Parent.node, explicit, hm],
      by simp only [Parent.node, explicit, hn]⟩
  | root =>
    exact ⟨explicitAll before, explicitAll after, by simp only [Parent.node, explicit, hm],
      by simp only [Parent.node, explicit, hn]⟩

/-- Peers, before and after signs of multiplication are written in them. -/
structure Agree (m n : Node) : Prop where
  plain : Peers m n
  explicit : Peers m.explicit n.explicit

theorem isInner_explicit (h : n.isInner = true) : n.explicit.isInner = true := by
  cases n <;> first | rfl | cases h

theorem Agree.refl (h : n.isInner = true) : Agree n n :=
  ⟨⟨h, h, rfl, rfl, rfl, rfl⟩, ⟨isInner_explicit h, isInner_explicit h, rfl, rfl, rfl, rfl⟩⟩

theorem Agree.among (h : Agree m n) (k : Parent) (before after : List Node) :
    Agree (k.node (before ++ m :: after)) (k.node (before ++ n :: after)) := by
  refine ⟨h.plain.among k before after, ?_⟩
  obtain ⟨us, vs, hm, hn⟩ := explicit_around h.plain.kin h.explicit.kin k before after
  rw [hm, hn]
  exact h.explicit.among k us vs

theorem Agree.first (h : Agree m n) (k : Pair) (b : Node) : Agree (k.node m b) (k.node n b) := by
  refine ⟨h.plain.first k b, ?_⟩
  cases k with
  | fraction => simpa only [Pair.node, Node.explicit] using h.explicit.first .fraction b.explicit
  | sub => simpa only [Pair.node, Node.explicit] using h.plain.first .sub b
  | sup => simpa only [Pair.node, Node.explicit] using h.explicit.first .sup b.explicit

theorem Agree.second (h : Agree m n) (k : Pair) (a : Node) : Agree (k.node a m) (k.node a n) := by
  refine ⟨h.plain.second k a, ?_⟩
  cases k with
  | fraction => simpa only [Pair.node, Node.explicit] using h.explicit.second .fraction a.explicit
  | sub => simpa only [Pair.node, Node.explicit] using h.plain.second .sub a
  | sup => simpa only [Pair.node, Node.explicit] using h.explicit.second .sup a.explicit

theorem Agree.fill (h : Agree m n) (p : Place) : Agree (p.fill m) (p.fill n) := by
  induction p with
  | here => exact h
  | among k before p after ih => exact ih.among k before after
  | first k p b ih => exact ih.first k b
  | second k a p ih => exact ih.second k a

end Explicit

/-- Codes that are the same but for a part of them; within a name there is no such part. -/
inductive Exchanged (named : Bool) (x y : List Fragment) :
    Except Fault (List Fragment) → Except Fault (List Fragment) → Prop where
  | fault (e : Fault) : Exchanged named x y (.error e) (.error e)
  | same (fs : List Fragment) : named = true → Exchanged named x y (.ok fs) (.ok fs)
  | around (ahead behind : List Fragment) :
      Exchanged named x y (.ok (ahead ++ (x ++ behind))) (.ok (ahead ++ (y ++ behind)))

section Exchanged

variable {x y : List Fragment} {named : Bool}

theorem exchanged_here (x y : List Fragment) : Exchanged named x y (.ok x) (.ok y) := by
  have h : Exchanged named x y _ _ := .around [] []
  simpa using h

theorem fragmentsEach_around (us vs : List Node) (m : Node) :
    fragmentsEach suffix (us ++ m :: vs) =
      match fragmentsEach suffix us, fragments suffix m, fragmentsEach suffix vs with
      | .error e, _, _ => .error e
      | _, .error e, _ => .error e
      | _, _, .error e => .error e
      | .ok a, .ok f, .ok b => .ok (a ++ f :: b) := by
  induction us with
  | nil =>
    rw [List.nil_append, fragmentsEach, fragmentsEach]
    cases fragments suffix m with
    | error e => rfl
    | ok f => cases fragmentsEach suffix vs <;> rfl
  | cons u us ih =>
    rw [List.cons_append, fragmentsEach, fragmentsEach, ih]
    cases fragments suffix u with
    | error e => rfl
    | ok fu =>
      cases fragmentsEach suffix us with
      | error e => rfl
      | ok a =>
        cases fragments suffix m with
        | error e => rfl
        | ok f => cases fragmentsEach suffix vs <;> rfl

/-- A code that is put together from those of siblings, one after the other. -/
theorem Exchanged.each (h : Exchanged named x y (fragments suffix m) (fragments suffix n))
    (us : List Node) {g : List (List Fragment) → List Fragment}
    (hg : ∀ a b, fragmentsEach suffix us = .ok a →
      ∃ ahead behind, ∀ f, g (a ++ f :: b) = ahead ++ (f ++ behind)) :
    Exchanged named x y ((fragmentsEach suffix (us ++ m :: vs)).map g)
      ((fragmentsEach suffix (us ++ n :: vs)).map g) := by
  rw [fragmentsEach_around, fragmentsEach_around]
  cases hus : fragmentsEach suffix us with
  | error e => exact .fault e
  | ok a =>
    generalize fragments suffix m = r at h
    generalize fragments suffix n = r' at h
    cases h with
    | fault e => exact .fault e
    | same fs hn =>
      cases fragmentsEach suffix vs with
      | error e => exact .fault e
      | ok b => exact .same _ hn
    | around ahead behind =>
      cases fragmentsEach suffix vs with
      | error e => exact .fault e
      | ok b =>
        obtain ⟨ahead', behind', hg⟩ := hg a b hus
        have : Exchanged named x y _ _ := .around (ahead' ++ ahead) (behind ++ behind')
        simpa only [Except.map, hg, List.append_assoc] using this

theorem flatten_around (a b : List (List Fragment)) :
    ∃ ahead behind, ∀ f, (a ++ f :: b).flatten = ahead ++ (f ++ behind) :=
  ⟨a.flatten, b.flatten, fun f => by simp⟩

theorem intersperse_around (comma : List Fragment) (a b : List (List Fragment)) :
    ∃ ahead behind, ∀ f, ((a ++ f :: b).intersperse comma).flatten = ahead ++ (f ++ behind) := by
  have hlast : ∃ behind, ∀ f, ((f :: b).intersperse comma).flatten = f ++ behind := by
    cases b with
    | nil => exact ⟨[], fun f => by simp⟩
    | cons c b => exact ⟨comma ++ ((c :: b).intersperse comma).flatten, fun f => by simp⟩
  obtain ⟨behind, hlast⟩ := hlast
  induction a with
  | nil => exact ⟨[], behind, hlast⟩
  | cons d a ih =>
    obtain ⟨ahead, behind', ih⟩ := ih
    refine ⟨d ++ (comma ++ ahead), behind', fun f => ?_⟩
    have hcons : ((d :: (a ++ f :: b)).intersperse comma).flatten =
        d ++ (comma ++ ((a ++ f :: b).intersperse comma).flatten) := by
      cases a <;> simp
    rw [List.cons_append, hcons, ih]
    simp

theorem Kin.checkArguments (h : Kin m n) (k : Keyword) (us vs : List Node) :
    Node.checkArguments k (us ++ m :: vs) = Node.checkArguments k (us ++ n :: vs) := by
  have hlast : (us ++ m :: vs).getLast?.any (isOperator "]") =
      (us ++ n :: vs).getLast?.any (isOperator "]") := by
    cases vs with
    | nil => simp [isOperator_eq, operator?_inner h.left, operator?_inner h.right]
    | cons v vs => simp [List.getLast?_append]
  have hlength : (us ++ m :: vs).length = (us ++ n :: vs).length := by simp
  have hempty : (us ++ m :: vs).isEmpty = (us ++ n :: vs).isEmpty := by
    cases us <;> rfl
  cases k <;> simp only [Node.checkArguments, Node.checkArguments.count, hlast, hlength, hempty]

theorem Exchanged.row (h : Exchanged named x y (fragments suffix m) (fragments suffix n))
    (hp : Kin m n) : Exchanged named x y (fragments suffix (.row (us ++ m :: vs)))
      (fragments suffix (.row (us ++ n :: vs))) := by
  rw [fragments_row_eq, fragments_row_eq, hp.headKeyword? us vs]
  unfold rowCode
  cases hk : Node.headKeyword? (us ++ n :: vs) with
  | none => exact h.each us fun a b _ => flatten_around a b
  | some k =>
    cases us with
    | nil => simp [headKeyword?_cons, operator?_inner hp.right] at hk
    | cons u us =>
      simp only [List.cons_append, List.tail_cons, hp.checkArguments k us vs]
      cases Node.checkArguments k (us ++ n :: vs) with
      | error e => exact .fault e
      | ok _ =>
        refine h.each (u :: us) fun a b ha => ?_
        obtain ⟨fs, a, -, -, rfl⟩ := fragmentsEach_cons_iff.1 ha
        have harguments : ∃ ahead behind, ∀ f, (if Keyword.separates k then
            (a ++ f :: b).intersperse [.text ","] else a ++ f :: b).flatten =
              ahead ++ (f ++ behind) := by
          cases Keyword.separates k with
          | true => exact intersperse_around _ a b
          | false => exact flatten_around a b
        obtain ⟨ahead, behind, hf⟩ := harguments
        refine ⟨.text (Keyword.opening k) :: ahead, behind ++ (Keyword.closing k).map .text,
          fun f => ?_⟩
        simp only [List.cons_append, List.tail_cons, callCode_eq, hf, List.append_assoc]

/-- The code of siblings with one of them exchanged. -/
theorem Exchanged.among (h : Exchanged named x y (fragments suffix m) (fragments suffix n))
    (hp : Kin m n) (k : Parent) : Exchanged named x y (fragments suffix (k.node (us ++ m :: vs)))
      (fragments suffix (k.node (us ++ n :: vs))) := by
  cases k with
  | row => exact h.row hp
  | fenced opener closer =>
    have hmap (ns : List Node) : fragments suffix (.fenced opener closer ns) =
        (fragmentsEach suffix ns).map fun parts =>
          .text opener :: (parts.intersperse [.text ","]).flatten ++ [Fragment.text closer] := by
      rw [fragments]
      cases fragmentsEach suffix ns <;> rfl
    rw [Parent.node, Parent.node, hmap, hmap]
    refine h.each us fun a b _ => ?_
    obtain ⟨ahead, behind, hf⟩ := intersperse_around [.text ","] a b
    exact ⟨.text opener :: ahead, behind ++ [Fragment.text closer], fun f => by simp [hf]⟩
  | root =>
    have hmap (ns : List Node) : fragments suffix (.root ns) =
        (fragmentsEach suffix ns).map fun parts =>
          parenthesized parts.flatten ++ [Fragment.text "**", .text "0.5"] := by
      rw [fragments]
      cases fragmentsEach suffix ns <;> rfl
    rw [Parent.node, Parent.node, hmap, hmap]
    refine h.each us fun a b _ => ?_
    obtain ⟨ahead, behind, hf⟩ := flatten_around a b
    exact ⟨.text "(" :: ahead, behind ++ [Fragment.text ")", .text "**", .text "0.5"],
      fun f => by simp [parenthesized, hf]⟩

theorem Exchanged.fraction_left (h : Exchanged named x y (fragments suffix m) (fragments suffix n))
    (b : Node) : Exchanged named x y (fragments suffix (.fraction m b))
      (fragments suffix (.fraction n b)) := by
  rw [fragments, fragments]
  generalize fragments suffix m = r at h
  generalize fragments suffix n = r' at h
  cases h with
  | fault e => exact .fault e
  | same fs hn =>
    cases fragments suffix b with
    | error e => exact .fault e
    | ok fb => exact .same _ hn
  | around ahead behind =>
    cases fragments suffix b with
    | error e => exact .fault e
    | ok fb =>
      have : Exchanged named x y _ _ := .around (.text "(" :: ahead)
        (behind ++ .text ")" :: .text "/" :: parenthesized fb)
      simpa [parenthesized] using this

theorem Exchanged.fraction_right (h : Exchanged named x y (fragments suffix m) (fragments suffix n))
    (a : Node) : Exchanged named x y (fragments suffix (.fraction a m))
      (fragments suffix (.fraction a n)) := by
  rw [fragments, fragments]
  cases fragments suffix a with
  | error e => exact .fault e
  | ok fa =>
    generalize fragments suffix m = r at h
    generalize fragments suffix n = r' at h
    cases h with
    | fault e => exact .fault e
    | same fs hn => exact .same _ hn
    | around ahead behind =>
      have : Exchanged named x y _ _ := .around
        (parenthesized fa ++ .text "/" :: .text "(" :: ahead) (behind ++ [Fragment.text ")"])
      simpa [parenthesized] using this

theorem Exchanged.power_left (h : Exchanged named x y (fragments suffix m) (fragments suffix n))
    {b : Node} (hb : isAsterisk b = false) : Exchanged named x y (fragments suffix (.sup m b))
      (fragments suffix (.sup n b)) := by
  rw [fragments, fragments, if_neg (by simp [hb]), if_neg (by simp [hb])]
  generalize fragments suffix m = r at h
  generalize fragments suffix n = r' at h
  cases h with
  | fault e => exact .fault e
  | same fs hn =>
    cases fragments suffix b with
    | error e => exact .fault e
    | ok fb => exact .same _ hn
  | around ahead behind =>
    cases fragments suffix b with
    | error e => exact .fault e
    | ok fb =>
      have : Exchanged named x y _ _ := .around
        (.text "(" :: ahead) (behind ++ .text ")" :: .text "**" :: parenthesized fb)
      simpa [parenthesized] using this

theorem Exchanged.power_right (h : Exchanged named x y (fragments suffix m) (fragments suffix n))
    (hm : isAsterisk m = false) (hn : isAsterisk n = false) (a : Node) :
    Exchanged named x y (fragments suffix (.sup a m)) (fragments suffix (.sup a n)) := by
  rw [fragments, fragments, if_neg (by simp [hm]), if_neg (by simp [hn])]
  cases fragments suffix a with
  | error e => exact .fault e
  | ok fa =>
    generalize fragments suffix m = r at h
    generalize fragments suffix n = r' at h
    cases h with
    | fault e => exact .fault e
    | same fs hn => exact .same _ hn
    | around ahead behind =>
      have : Exchanged named x y _ _ := .around
        (parenthesized fa ++ .text "**" :: .text "(" :: ahead) (behind ++ [Fragment.text ")"])
      simpa [parenthesized] using this

theorem Exchanged.base (h : Exchanged named x y (fragments suffix m) (fragments suffix n))
    (hp : Peers m n) (b : Node) : Exchanged (isAsterisk b || named) x y
      (fragments suffix (.sup m b)) (fragments suffix (.sup n b)) := by
  cases hb : isAsterisk b with
  | true =>
    rw [fragments, fragments, if_pos hb, if_pos hb, compoundName, compoundName, hp.name]
    exact .same _ rfl
  | false => simpa using h.power_left hb

theorem Exchanged.exponent (h : Exchanged named x y (fragments suffix m) (fragments suffix n))
    (hp : Peers m n) (a : Node) : Exchanged (isAsterisk m || named) x y
      (fragments suffix (.sup a m)) (fragments suffix (.sup a n)) := by
  cases hm : isAsterisk m with
  | true =>
    have hn := hp.asterisk.symm.trans hm
    rw [fragments, fragments, if_pos hm, if_pos hn, compoundName, compoundName, if_pos hm,
      if_pos hn]
    exact .same _ rfl
  | false => simpa using h.power_right hm (hp.asterisk.symm.trans hm) a

/-- The code around a place stays when what stands there is exchanged. -/
theorem exchanged_fill (ha : Agree m n)
    (h : Exchanged false x y (fragments suffix m.explicit) (fragments suffix n.explicit))
    (p : Place) : Exchanged (p.isNamed m) x y (fragments suffix (p.fill m).explicit)
      (fragments suffix (p.fill n).explicit) := by
  induction p with
  | here => exact h
  | among k before p after ih =>
    have hp := ha.fill p
    obtain ⟨us, vs, hm, hn⟩ := explicit_around hp.plain.kin hp.explicit.kin k before after
    rw [Place.fill, Place.fill, hm, hn]
    exact ih.among hp.explicit.kin k
  | first k p b ih =>
    have hp := ha.fill p
    cases k with
    | sub =>
      simp only [Place.fill, Pair.node, explicit, fragments, compoundName, hp.plain.name]
      exact .same _ rfl
    | fraction =>
      simpa only [Place.fill, Place.isNamed, Pair.node, explicit] using ih.fraction_left b.explicit
    | sup =>
      simpa only [Place.fill, Place.isNamed, Pair.node, explicit] using
        ih.base hp.explicit b.explicit
  | second k a p ih =>
    have hp := ha.fill p
    cases k with
    | sub =>
      simp only [Place.fill, Pair.node, explicit, fragments, compoundName, hp.plain.name]
      exact .same _ rfl
    | fraction =>
      simpa only [Place.fill, Place.isNamed, Pair.node, explicit] using ih.fraction_right a.explicit
    | sup =>
      simpa only [Place.fill, Place.isNamed, Pair.node, explicit] using
        ih.exponent hp.explicit a.explicit

/-- Nodes with the same code may be exchanged everywhere. -/
theorem fragments_fill_eq (ha : Agree m n)
    (h : fragments suffix m.explicit = fragments suffix n.explicit) (p : Place) :
    fragments suffix (p.fill m).explicit = fragments suffix (p.fill n).explicit := by
  have hx : ∃ x, Exchanged false x x (fragments suffix m.explicit)
      (fragments suffix n.explicit) := by
    rw [h]
    cases fragments suffix n.explicit with
    | error e => exact ⟨[], .fault e⟩
    | ok fs => exact ⟨fs, exchanged_here fs fs⟩
  obtain ⟨x, hx⟩ := hx
  have hp := exchanged_fill ha hx p
  generalize fragments suffix (p.fill m).explicit = r at hp
  generalize fragments suffix (p.fill n).explicit = r' at hp
  cases hp <;> rfl

theorem compile_fill_eq (ha : Agree m n)
    (h : fragments suffix m.explicit = fragments suffix n.explicit) (p : Place) :
    (p.fill m).compile suffix = (p.fill n).compile suffix := by
  rw [compile, compile, fragments_fill_eq ha h, (ha.fill p).explicit.skipped]

/-- The code that two expressions have around what is exchanged. -/
structure Around (x y ahead behind : List Fragment) (e e' : Expression) : Prop where
  left : e.fragments = ahead ++ (x ++ behind)
  right : e'.fragments = ahead ++ (y ++ behind)

/-- Nodes in the same place of a formula. -/
theorem compile_exchanged (ha : Agree m n)
    (hx : Exchanged false x y (fragments suffix m.explicit) (fragments suffix n.explicit))
    {p : Place} {e : Expression} (h : (p.fill m).compile suffix = .ok e) :
    ∃ e', (p.fill n).compile suffix = .ok e' ∧ e'.skipped = e.skipped ∧
      (p.isNamed m = true ∧ e' = e ∨ ∃ ahead behind, Around x y ahead behind e e') := by
  have hp := exchanged_fill ha hx p
  have hs := (ha.fill p).explicit.skipped
  simp only [compile] at h ⊢
  generalize fragments suffix (p.fill m).explicit = r at hp h
  generalize fragments suffix (p.fill n).explicit = r' at hp
  cases hp with
  | fault e => cases h
  | same fs hn =>
    cases h
    exact ⟨_, rfl, hs.symm, .inl ⟨hn, by rw [hs]⟩⟩
  | around ahead behind =>
    cases h
    exact ⟨_, rfl, hs.symm, .inr ⟨ahead, behind, rfl, rfl⟩⟩

/-- Nodes with code of their own in the same place of a formula. -/
theorem compile_fill (ha : Agree m n) (hm : fragments suffix m.explicit = .ok x)
    (hn : fragments suffix n.explicit = .ok y) {p : Place} {e : Expression}
    (h : (p.fill m).compile suffix = .ok e) : ∃ e', (p.fill n).compile suffix = .ok e' ∧
      e'.skipped = e.skipped ∧ (p.isNamed m = true ∧ e' = e ∨
        ∃ ahead behind, Around x y ahead behind e e') := by
  refine compile_exchanged ha ?_ h
  rw [hm, hn]
  exact exchanged_here x y

/-- What has no code may stand within a name only. -/
theorem isNamed_of_fault (ha : Agree n n) {fault : Fault}
    (hn : fragments suffix n.explicit = .error fault) {p : Place} {e : Expression}
    (h : (p.fill n).compile suffix = .ok e) : p.isNamed n = true := by
  have hx : Exchanged false [] [.text ""] (fragments suffix n.explicit)
      (fragments suffix n.explicit) := by
    rw [hn]
    exact .fault fault
  obtain ⟨e', he', -, ⟨hnamed, -⟩ | ⟨ahead, behind, hleft, hright⟩⟩ := compile_exchanged ha hx h
  · exact hnamed
  · cases h.symm.trans he'
    simpa using congrArg List.length (hleft.symm.trans hright)

end Exchanged

end Node

end Formula

end Kinetics
