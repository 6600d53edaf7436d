import Kinetics.Proofs.Formula.Place

/-!
# Kinetics.Proofs.Formula.Variant

Formulas that differ in one place only. What stands there gives the formulas around it a piece of
code, or a piece of a name where a compound symbol is made of it (`Excerpt`). In every other respect
the two formulas are alike, and so are all formulas around them (`Variants.fill`): they compile to
the same but for that piece (`Variants.compile`). Within a subscript, where no signs of
multiplication are put, formulas are told by their names only (`compile_inSubscript`).
-/

namespace Kinetics

namespace Formula

/-- Whether the place lies within a subscript or what has one. -/
def Place.inSubscript : Place → Bool
  | .here => false
  | .among _ _ p _ => p.inSubscript
  | .first .sub _ _ => true
  | .second .sub _ _ => true
  | .first _ p _ => p.inSubscript
  | .second _ _ p => p.inSubscript

/-- What a formula gives to those around it: its code, or a piece of a name. -/
structure Excerpt where
  code : Except Fault (List Fragment)
  name : String

namespace Excerpt

variable {suffix : String}

/-- Two codes that come of two parts: those of the parts, or symbols with the names of the parts
in the same place of their own. -/
inductive Leaves (suffix : String) (a b : Excerpt) : List Fragment → List Fragment → Prop where
  | code {x y : List Fragment} : a.code = .ok x → b.code = .ok y → Leaves suffix a b x y
  | name (start stop : String) :
      Leaves suffix a b [.symbol (start ++ (a.name ++ stop)) suffix]
        [.symbol (start ++ (b.name ++ stop)) suffix]

/-- The same fault, or two expressions that are the same but for what comes of the two parts. -/
inductive Differs (suffix : String) (a b : Excerpt) :
    Except Fault Expression → Except Fault Expression → Prop where
  | fault (f : Fault) : Differs suffix a b (.error f) (.error f)
  | around {x y : List Fragment} (ahead behind : List Fragment) (skipped : List String) :
      Leaves suffix a b x y →
      Differs suffix a b (.ok ⟨ahead ++ (x ++ behind), skipped⟩)
        (.ok ⟨ahead ++ (y ++ behind), skipped⟩)

end Excerpt

namespace Node

variable {suffix : String} {a b : Excerpt} {m n : Node} {ns us vs : List Node}

section Names

theorem compoundNames_append (us vs : List Node) :
    compoundNames (us ++ vs) = compoundNames us ++ compoundNames vs := by
  induction us with
  | nil => simp [compoundNames]
  | cons u us ih => rw [List.cons_append, compoundNames, compoundNames, ih, String.append_assoc]

theorem skippedAmong_append (us vs : List Node) :
    skippedAmong (us ++ vs) = skippedAmong us ++ skippedAmong vs := by
  induction us with
  | nil => rfl
  | cons u us ih => rw [List.cons_append, skippedAmong, skippedAmong, ih, List.append_assoc]

theorem compoundName_parent (k : Parent) (ns : List Node) :
    compoundName (k.node ns) = compoundNames ns := by
  cases k <;> rw [Parent.node, compoundName]

theorem skippedTags_parent (k : Parent) (ns : List Node) :
    skippedTags (k.node ns) = skippedAmong ns := by
  cases k <;> rw [Parent.node, skippedTags]

theorem isAsterisk_among (h : isAsterisk m = false) (k : Parent) (us vs : List Node) :
    isAsterisk (k.node (us ++ m :: vs)) = false := by
  cases k with
  | row =>
    cases us with
    | nil =>
      cases vs with
      | nil => simpa [Parent.node, isAsterisk] using h
      | cons v vs => rfl
    | cons u us => cases us <;> rfl
  | _ => rfl

end Names

section Subscript

theorem Peers.fill (h : Peers m n) (p : Place) : Peers (p.fill m) (p.fill n) := by
  induction p with
  | here => exact h
  | among k before p after ih => exact ih.among k before after
  | first k p b ih => exact ih.first k b
  | second k a p ih => exact ih.second k a

/-- Within a subscript formulas are told by their names only. -/
theorem fill_inSubscript (h : Peers m n) {p : Place} (hp : p.inSubscript = true) :
    Agree (p.fill m) (p.fill n) ∧
      fragments suffix (p.fill m).explicit = fragments suffix (p.fill n).explicit := by
  have hfirst {p : Place} (b : Node) : Agree (.sub (p.fill m) b) (.sub (p.fill n) b) :=
    ⟨(h.fill p).first .sub b, by simpa only [Pair.node, explicit] using (h.fill p).first .sub b⟩
  have hsecond {p : Place} (a : Node) : Agree (.sub a (p.fill m)) (.sub a (p.fill n)) :=
    ⟨(h.fill p).second .sub a, by simpa only [Pair.node, explicit] using (h.fill p).second .sub a⟩
  induction p with
  | here => cases hp
  | among k before p after ih =>
    obtain ⟨ha, he⟩ := ih hp
    exact ⟨ha.among k before after, fragments_fill_eq ha he (.among k before .here after)⟩
  | first k p b ih =>
    cases k with
    | sub =>
      refine ⟨hfirst b, ?_⟩
      simp only [Place.fill, Pair.node, explicit, fragments, (hfirst b).plain.name]
    | fraction =>
      obtain ⟨ha, he⟩ := ih hp
      exact ⟨ha.first .fraction b, fragments_fill_eq ha he (.first .fraction .here b)⟩
    | sup =>
      obtain ⟨ha, he⟩ := ih hp
      exact ⟨ha.first .sup b, fragments_fill_eq ha he (.first .sup .here b)⟩
  | second k a p ih =>
    cases k with
    | sub =>
      refine ⟨hsecond a, ?_⟩
      simp only [Place.fill, Pair.node, explicit, fragments, (hsecond a).plain.name]
    | fraction =>
      obtain ⟨ha, he⟩ := ih hp
      exact ⟨ha.second .fraction a, fragments_fill_eq ha he (.second .fraction a .here)⟩
    | sup =>
      obtain ⟨ha, he⟩ := ih hp
      exact ⟨ha.second .sup a, fragments_fill_eq ha he (.second .sup a .here)⟩

theorem compile_inSubscript (h : Peers m n) {p : Place} (hp : p.inSubscript = true) :
    (p.fill m).compile suffix = (p.fill n).compile suffix := by
  obtain ⟨ha, he⟩ := fill_inSubscript h hp
  exact compile_fill_eq ha he .here

end Subscript

section Variants

/-- Formulas that differ in one place, where the first has the one part and the second the other.
Neither is a star, which would make a symbol of what it is an exponent to. -/
structure Variants (suffix : String) (a b : Excerpt) (m n : Node) : Prop where
  plain : Kin m n
  explicit : Kin m.explicit n.explicit
  left : isAsterisk m.explicit = false
  right : isAsterisk n.explicit = false
  skipped : skippedTags m.explicit = skippedTags n.explicit
  name : ∃ start stop, compoundName m.explicit = start ++ (a.name ++ stop) ∧
    compoundName n.explicit = start ++ (b.name ++ stop)
  code : ∃ x y, a.Leaves suffix b x y ∧
    Exchanged false x y (fragments suffix m.explicit) (fragments suffix n.explicit)

namespace Variants

theorem among (h : Variants suffix a b m n) (k : Parent) (before after : List Node) :
    Variants suffix a b (k.node (before ++ m :: after)) (k.node (before ++ n :: after)) := by
  obtain ⟨us, vs, hm, hn⟩ := explicit_around h.plain h.explicit k before after
  obtain ⟨start, stop, hname, hname'⟩ := h.name
  obtain ⟨x, y, hxy, hx⟩ := h.code
  refine ⟨h.plain.among k before after, ?_, ?_, ?_, ?_,
    ⟨compoundNames us ++ start, stop ++ compoundNames vs, ?_, ?_⟩, x, y, hxy, ?_⟩
  · rw [hm, hn]
    exact h.explicit.among k us vs
  · rw [hm]
    exact isAsterisk_among h.left k us vs
  · rw [hn]
    exact isAsterisk_among h.right k us vs
  · simp only [hm, hn, skippedTags_parent, skippedAmong_append, skippedAmong, h.skipped]
  · simp only [hm, compoundName_parent, compoundNames_append, compoundNames, hname,
      String.append_assoc]
  · simp only [hn, compoundName_parent, compoundNames_append, compoundNames, hname',
      String.append_assoc]
  · rw [hm, hn]
    exact hx.among h.explicit k

theorem numerator (h : Variants suffix a b m n) (c : Node) :
    Variants suffix a b (.fraction m c) (.fraction n c) := by
  obtain ⟨start, stop, hname, hname'⟩ := h.name
  obtain ⟨x, y, hxy, hx⟩ := h.code
  refine ⟨.pair .fraction _ _ _ _, ?_, ?_, ?_, ?_,
    ⟨start, stop ++ compoundName c.explicit, ?_, ?_⟩, x, y, hxy, ?_⟩
  · simpa only [Node.explicit] using .pair .fraction _ _ _ _
  · simp only [Node.explicit, isAsterisk]
  · simp only [Node.explicit, isAsterisk]
  · simp only [Node.explicit, skippedTags, h.skipped]
  · simp only [Node.explicit, compoundName, hname, String.append_assoc]
  · simp only [Node.explicit, compoundName, hname', String.append_assoc]
  · simpa only [Node.explicit] using hx.fraction_left c.explicit

theorem denominator (h : Variants suffix a b m n) (c : Node) :
    Variants suffix a b (.fraction c m) (.fraction c n) := by
  obtain ⟨start, stop, hname, hname'⟩ := h.name
  obtain ⟨x, y, hxy, hx⟩ := h.code
  refine ⟨.pair .fraction _ _ _ _, ?_, ?_, ?_, ?_,
    ⟨compoundName c.explicit ++ start, stop, ?_, ?_⟩, x, y, hxy, ?_⟩
  · simpa only [Node.explicit] using .pair .fraction _ _ _ _
  · simp only [Node.explicit, isAsterisk]
  · simp only [Node.explicit, isAsterisk]
  · simp only [Node.explicit, skippedTags, h.skipped]
  · simp only [Node.explicit, compoundName, hname, String.append_assoc]
  · simp only [Node.explicit, compoundName, hname', String.append_assoc]
  · simpa only [Node.explicit] using hx.fraction_right c.explicit

/-- The base of a power; behind a star it is part of a name. -/
theorem base (h : Variants suffix a b m n) (c : Node) :
    Variants suffix a b (.sup m c) (.sup n c) := by
  obtain ⟨start, stop, hname, hname'⟩ := h.name
  obtain ⟨last, hlast⟩ : ∃ last : String, ∀ k : Node,
      compoundName (Node.sup k c).explicit = compoundName k.explicit ++ last := by
    simp only [Node.explicit, compoundName]
    split
    · exact ⟨"_star", fun _ => rfl⟩
    · exact ⟨compoundName c.explicit, fun _ => rfl⟩
  have hm : compoundName (Node.sup m c).explicit = start ++ (a.name ++ (stop ++ last)) := by
    rw [hlast, hname]
    simp only [String.append_assoc]
  have hn : compoundName (Node.sup n c).explicit = start ++ (b.name ++ (stop ++ last)) := by
    rw [hlast, hname']
    simp only [String.append_assoc]
  have hcode : ∃ x y, a.Leaves suffix b x y ∧ Exchanged false x y
      (fragments suffix (Node.sup m c).explicit) (fragments suffix (Node.sup n c).explicit) := by
    by_cases hc : isAsterisk c.explicit = true
    · refine ⟨_, _, .name start (stop ++ last), ?_⟩
      rw [← hm, ← hn]
      simp only [Node.explicit, fragments, if_pos hc]
      exact exchanged_here _ _
    · obtain ⟨x, y, hxy, hx⟩ := h.code
      refine ⟨x, y, hxy, ?_⟩
      simpa only [Node.explicit] using hx.power_left (by simpa using hc)
  refine ⟨.pair .sup _ _ _ _, ?_, ?_, ?_, ?_, ⟨start, stop ++ last, hm, hn⟩, hcode⟩
  · simpa only [Node.explicit] using .pair .sup _ _ _ _
  · simp only [Node.explicit, isAsterisk]
  · simp only [Node.explicit, isAsterisk]
  · simp only [Node.explicit, skippedTags, h.skipped]

theorem exponent (h : Variants suffix a b m n) (c : Node) :
    Variants suffix a b (.sup c m) (.sup c n) := by
  obtain ⟨start, stop, hname, hname'⟩ := h.name
  obtain ⟨x, y, hxy, hx⟩ := h.code
  refine ⟨.pair .sup _ _ _ _, ?_, ?_, ?_, ?_,
    ⟨compoundName c.explicit ++ start, stop, ?_, ?_⟩, x, y, hxy, ?_⟩
  · simpa only [Node.explicit] using .pair .sup _ _ _ _
  · simp only [Node.explicit, isAsterisk]
  · simp only [Node.explicit, isAsterisk]
  · simp only [Node.explicit, skippedTags, h.left, h.right, h.skipped]
  · simp only [Node.explicit, compoundName, h.left, Bool.false_eq_true, if_false, hname,
      String.append_assoc]
  · simp only [Node.explicit, compoundName, h.right, Bool.false_eq_true, if_false, hname',
      String.append_assoc]
  · simpa only [Node.explicit] using hx.power_right h.left h.right c.explicit

/-- What differs stays the same in every formula around it. -/
theorem fill (h : Variants suffix a b m n) {p : Place} (hp : p.inSubscript = false) :
    Variants suffix a b (p.fill m) (p.fill n) := by
  induction p with
  | here => exact h
  | among k before p after ih => exact (ih hp).among k before after
  | first k p c ih =>
    cases k with
    | fraction => exact (ih hp).numerator c
    | sub => cases hp
    | sup => exact (ih hp).base c
  | second k c p ih =>
    cases k with
    | fraction => exact (ih hp).denominator c
    | sub => cases hp
    | sup => exact (ih hp).exponent c

theorem compile (h : Variants suffix a b m n) {p : Place} (hp : p.inSubscript = false) :
    a.Differs suffix b ((p.fill m).compile suffix) ((p.fill n).compile suffix) := by
  obtain ⟨x, y, hxy, hx⟩ := (h.fill hp).code
  rw [Node.compile, Node.compile, (h.fill hp).skipped]
  generalize fragments suffix (p.fill m).explicit = r at hx
  generalize fragments suffix (p.fill n).explicit = r' at hx
  cases hx with
  | fault f => exact .fault f
  | same fs hn => cases hn
  | around ahead behind => exact .around ahead behind _ hxy

end Variants

end Variants

end Node

end Formula

end Kinetics
