import Kinetics.Model.Order
import Kinetics.Proofs.Dict
import Kinetics.Proofs.Fallible
import Mathlib.Logic.Relation

/-!
# Kinetics.Proofs.Model.Order

The depth-first search gives an order in which every name comes after those it needs, directly or
through others. What one visit keeps is `Sorted`; what it adds lies behind the old order and
outside the path that is being worked on. The path leads from each of its names to the one that is
visited (`Trail`), so a search that fails names a cycle, and it fails exactly where there is one.
-/

namespace Kinetics

namespace Order

open Relation

variable {deps : Dict String NameSet}

def Needs (deps : Dict String NameSet) (name other : String) : Prop :=
  ∃ ds, deps.find? name = some ds ∧ other ∈ ds.toList

/-- Every name comes once, after all that it needs. -/
structure Sorted (deps : Dict String NameSet) (order : List String) : Prop where
  nodup : order.Nodup
  closed : ∀ before name after, order = before ++ name :: after →
    ∀ other, Needs deps name other → other ∈ before

/-- The new order goes on from the old one, with names that are allowed and not being worked on. -/
structure Extends (path : List String) (Allowed : String → Prop) (order new : List String) :
    Prop where
  start : order <+: new
  fresh : ∀ name ∈ new, name ∈ order ∨ (name ∉ path ∧ Allowed name)

theorem Sorted.nil : Sorted deps [] := by
  refine ⟨List.nodup_nil, fun before name after h => ?_⟩
  cases before <;> cases h

theorem Sorted.concat {order : List String} {name : String} (h : Sorted deps order)
    (hn : name ∉ order) (hd : ∀ other, Needs deps name other → other ∈ order) :
    Sorted deps (order ++ [name]) := by
  refine ⟨List.nodup_append.2 ⟨h.nodup, by simp, ?_⟩, ?_⟩
  · intro a ha b hb
    rw [List.mem_singleton.1 hb]
    rintro rfl
    exact hn ha
  · intro before other after he
    rcases List.eq_nil_or_concat after with rfl | ⟨after, last, rfl⟩
    · obtain ⟨rfl, hl⟩ := List.append_inj' he rfl
      cases hl
      exact hd
    · have he' : order ++ [name] = (before ++ other :: after) ++ [last] := by simpa using he
      obtain ⟨rfl, -⟩ := List.append_inj' he' rfl
      exact h.closed before other after rfl

theorem Extends.refl (path : List String) (Allowed : String → Prop) (order : List String) :
    Extends path Allowed order order :=
  ⟨List.prefix_refl order, fun _ h => .inl h⟩

theorem Extends.trans {path a b c : List String} {Allowed : String → Prop}
    (h : Extends path Allowed a b) (g : Extends path Allowed b c) : Extends path Allowed a c := by
  refine ⟨h.start.trans g.start, fun name hn => ?_⟩
  rcases g.fresh name hn with hb | hb
  · exact h.fresh name hb
  · exact .inr hb

theorem Extends.concat {path a b : List String} {Allowed : String → Prop} {name : String}
    (h : Extends (name :: path) Allowed a b) (hp : name ∉ path) (hn : Allowed name) :
    Extends path Allowed a (b ++ [name]) := by
  refine ⟨h.start.trans (List.prefix_append b [name]), fun other ho => ?_⟩
  rcases List.mem_append.1 ho with ho | ho
  · refine (h.fresh other ho).imp id fun hf => ⟨?_, hf.2⟩
    exact fun hm => hf.1 (List.mem_cons_of_mem name hm)
  · rw [List.mem_singleton.1 ho]
    exact .inr ⟨hp, hn⟩

/-- What a step that adds a name keeps, and that it adds it. -/
def Adds (deps : Dict String NameSet) (path : List String) (Allowed : String → Prop)
    (step : List String → String → Except Fault (List String)) : Prop :=
  ∀ order name new, Sorted deps order → Allowed name → step order name = .ok new →
    Sorted deps new ∧ Extends path Allowed order new ∧ name ∈ new

/-- A run of steps keeps what each step keeps, and adds all names. -/
theorem Adds.all {path : List String} {Allowed : String → Prop}
    {step : List String → String → Except Fault (List String)} (hs : Adds deps path Allowed step)
    {names order new : List String} (h : Sorted deps order) (ha : ∀ name ∈ names, Allowed name)
    (hr : names.foldlM step order = .ok new) :
    Sorted deps new ∧ Extends path Allowed order new ∧ ∀ name ∈ names, name ∈ new := by
  induction names generalizing order with
  | nil =>
    cases hr
    exact ⟨h, .refl path Allowed _, by simp⟩
  | cons name names ih =>
    rw [List.foldlM_cons] at hr
    obtain ⟨mid, hv, hr⟩ := bind_ok.1 hr
    obtain ⟨hm, he, hin⟩ := hs order name mid h (ha name (by simp)) hv
    obtain ⟨hn, he', hall⟩ := ih hm (fun n hn => ha n (List.mem_cons_of_mem name hn)) hr
    refine ⟨hn, he.trans he', fun n hn => ?_⟩
    rcases List.mem_cons.1 hn with rfl | hn
    · exact he'.start.subset hin
    · exact hall n hn

theorem foldlM_error {step : List String → String → Except Fault (List String)} {Bad : Fault → Prop}
    {names order : List String} {e : Fault}
    (hs : ∀ order, ∀ name ∈ names, ∀ e, step order name = .error e → Bad e)
    (h : names.foldlM step order = .error e) : Bad e := by
  induction names generalizing order with
  | nil => cases h
  | cons name names ih =>
    rw [List.foldlM_cons] at h
    rcases bind_error.1 h with hv | ⟨mid, -, hr⟩
    · exact hs order name List.mem_cons_self e hv
    · exact ih (fun order n hn => hs order n (List.mem_cons_of_mem name hn)) hr

/-- A name that is met for the first time comes after its dependencies. -/
theorem visit_new {path order : List String} {name : String} {ds : NameSet}
    (hp : path.contains name ≠ true) (ho : order.contains name ≠ true)
    (hd : deps.find? name = some ds) :
    visit deps path order name =
      match ds.toList.foldlM (visit deps (name :: path)) order with
      | .error e => .error e
      | .ok new => .ok (new ++ [name]) := by
  rw [visit, dif_neg hp, if_neg ho]
  split
  · rename_i h
    rw [hd] at h
    cases h
  · rename_i h
    rw [hd] at h
    cases h
    rfl

theorem visit_unlisted {path order : List String} {name : String}
    (hp : path.contains name ≠ true) (ho : order.contains name ≠ true)
    (hd : deps.find? name = none) : visit deps path order name = .error (.unlisted name) := by
  rw [visit, dif_neg hp, if_neg ho]
  split
  · rfl
  · rename_i h
    rw [hd] at h
    cases h

theorem visit_adds {Allowed : String → Prop}
    (hc : ∀ name other, Allowed name → Needs deps name other → Allowed other)
    (path : List String) : Adds deps path Allowed (visit deps path) := by
  intro order name
  induction path, order, name using visit.induct deps with
  | case1 path order name hp =>
    intro new h hn hv
    rw [visit, dif_pos hp] at hv
    cases hv
  | case2 path order name hp ho =>
    intro new h hn hv
    rw [visit, dif_neg hp, if_pos ho] at hv
    cases hv
    exact ⟨h, .refl path Allowed order, by simpa using ho⟩
  | case3 path order name hp ho hd =>
    intro new h hn hv
    rw [visit_unlisted hp ho hd] at hv
    cases hv
  | case4 path order name hp ho ds hd e hf ih =>
    intro new h hn hv
    rw [visit_new hp ho hd, hf] at hv
    cases hv
  | case5 path order name hp ho ds hd mid hf ih =>
    intro new h hn hv
    rw [visit_new hp ho hd, hf] at hv
    cases hv
    have hstep : Adds deps (name :: path) Allowed (visit deps (name :: path)) :=
      fun order other new => ih order other new
    have hall : ∀ other ∈ ds.toList, Allowed other := fun other ho => hc name other hn ⟨ds, hd, ho⟩
    obtain ⟨hm, he, hin⟩ := hstep.all h hall hf
    refine ⟨hm.concat ?_ ?_, he.concat (by simpa using hp) hn, by simp⟩
    · intro hmem
      rcases he.fresh name hmem with hmem | hmem
      · exact ho (by simpa using hmem)
      · exact hmem.1 (by simp)
    · rintro other ⟨es, hes, hother⟩
      rw [hd] at hes
      cases hes
      exact hin other hother

/-- Each name of the path needs the one in front of it, the first one the visited name. -/
inductive Trail (deps : Dict String NameSet) : List String → String → Prop where
  | start {name : String} : Trail deps [] name
  | enter {path : List String} {top name : String} :
      Trail deps path top → Needs deps top name → Trail deps (top :: path) name

theorem Trail.needs {path : List String} {name other : String} (h : Trail deps path name)
    (ho : other ∈ path) : TransGen (Needs deps) other name := by
  induction h with
  | start => cases ho
  | enter _ hn ih =>
    rcases List.mem_cons.1 ho with rfl | ho
    · exact .single hn
    · exact (ih ho).tail hn

/-- The fault names a cycle: a name that needs itself, or one that needs the other and is needed
by it. -/
def Blames (deps : Dict String NameSet) : Fault → Prop
  | .ownDependency name => Needs deps name name
  | .mutualDependency name other =>
    Needs deps name other ∧ TransGen (Needs deps) other name
  | _ => False

theorem Blames.code {e : Fault} (h : Blames deps e) : e.report.code = .circularDependency := by
  cases e with
  | ownDependency name => rfl
  | mutualDependency name other => rfl
  | _ => cases h

theorem Blames.cyclic {e : Fault} (h : Blames deps e) :
    ∃ name, TransGen (Needs deps) name name := by
  cases e with
  | ownDependency name => exact ⟨name, .single h⟩
  | mutualDependency name other => exact ⟨other, h.2.tail h.1⟩
  | _ => cases h

theorem Trail.blames {path : List String} {name : String} (h : Trail deps path name)
    (hp : name ∈ path) : Blames deps (cycle path name) := by
  cases h with
  | start => cases hp
  | @enter path top name ht hn =>
    rw [cycle]
    split
    · rename_i he
      rw [he] at hn ⊢
      exact hn
    · rename_i hne
      exact ⟨hn, ht.needs ((List.mem_cons.1 hp).resolve_left hne)⟩

/-- A search that goes along a trail fails only where it meets the trail again. -/
theorem visit_blames (hc : ∀ name other, Needs deps name other → other ∈ deps.keys)
    {path order : List String} {name : String} {e : Fault} (hn : name ∈ deps.keys)
    (ht : Trail deps path name) (h : visit deps path order name = .error e) : Blames deps e := by
  induction path, order, name using visit.induct deps generalizing e with
  | case1 path order name hp =>
    rw [visit, dif_pos hp] at h
    cases h
    exact ht.blames (by simpa using hp)
  | case2 path order name hp ho =>
    rw [visit, dif_neg hp, if_pos ho] at h
    cases h
  | case3 path order name hp ho hd =>
    rw [← Dict.contains_iff, Dict.contains, hd] at hn
    cases hn
  | case4 path order name hp ho ds hd f hf ih =>
    rw [visit_new hp ho hd, hf] at h
    cases h
    refine foldlM_error (fun order other ho e h => ?_) hf
    have hneeds : Needs deps name other := ⟨ds, hd, ho⟩
    exact ih order other (hc name other hneeds) (.enter ht hneeds) h
  | case5 path order name hp ho ds hd mid hf ih =>
    rw [visit_new hp ho hd, hf] at h
    cases h

theorem ofDependencies_sorted {order : List String} (h : ofDependencies deps = .ok order)
    (hc : ∀ name other, Needs deps name other → other ∈ deps.keys) :
    Sorted deps order ∧ ∀ name, name ∈ order ↔ name ∈ deps.keys := by
  have hstep : Adds deps [] (· ∈ deps.keys) (visit deps []) :=
    visit_adds (fun name other _ hn => hc name other hn) []
  obtain ⟨hs, he, hin⟩ := hstep.all .nil (fun name hn => hn) h
  refine ⟨hs, fun name => ⟨fun hn => ?_, hin name⟩⟩
  rcases he.fresh name hn with hn | hn
  · cases hn
  · exact hn.2

theorem ofDependencies_blames (hc : ∀ name other, Needs deps name other → other ∈ deps.keys)
    {e : Fault} (h : ofDependencies deps = .error e) : Blames deps e :=
  foldlM_error (fun _ _ hn _ h => visit_blames hc hn .start h) h

theorem ofDependencies_error (hc : ∀ name other, Needs deps name other → other ∈ deps.keys)
    {e : Fault} (h : ofDependencies deps = .error e) : e.report.code = .circularDependency :=
  (ofDependencies_blames hc h).code

/-- What is needed through others comes before, too. -/
theorem Sorted.before_of_needs {order before after : List String} {name other : String}
    (h : Sorted deps order) (ho : order = before ++ name :: after)
    (hn : TransGen (Needs deps) name other) : other ∈ before := by
  induction hn using TransGen.head_induction_on generalizing before after with
  | single hn => exact h.closed before _ after ho _ hn
  | head hn _ ih =>
    obtain ⟨left, right, rfl⟩ := List.append_of_mem (h.closed before _ after ho _ hn)
    rw [List.append_assoc, List.cons_append] at ho
    have := ih ho
    simp [this]

theorem Sorted.notMem_before {order before after : List String} {name : String}
    (h : Sorted deps order) (ho : order = before ++ name :: after) : name ∉ before := by
  intro hb
  have hn := h.nodup
  rw [ho, List.nodup_append] at hn
  exact hn.2.2 name hb name (by simp) rfl

theorem Sorted.idxOf_lt_iff {order before after : List String} {name other : String}
    (h : Sorted deps order) (ho : order = before ++ name :: after) :
    order.idxOf other < order.idxOf name ↔ other ∈ before := by
  rw [ho, List.idxOf_append, List.idxOf_append, if_neg (h.notMem_before ho), List.idxOf_cons_self]
  by_cases hother : other ∈ before
  · have := List.idxOf_lt_length_iff.2 hother
    rw [if_pos hother]
    simp [hother, this]
  · rw [if_neg hother]
    simp [hother]

theorem Sorted.acyclic {order : List String} {name : String} (h : Sorted deps order)
    (hm : name ∈ order) : ¬TransGen (Needs deps) name name := by
  intro hn
  obtain ⟨before, after, ho⟩ := List.append_of_mem hm
  exact h.notMem_before ho (h.before_of_needs ho hn)

section Meeting

/-- The name is reached along dependencies. -/
def Reaches (deps : Dict String NameSet) : String → String → Prop :=
  ReflTransGen (Needs deps)

/-- The search from a list of names comes to the end of a name before that of another one: it is
reached first without the other one, or within a name that reaches both. -/
inductive Meets (deps : Dict String NameSet) (name other : String) : List String → Prop where
  | next {n : String} {ns : List String} : ¬Reaches deps n name → ¬Reaches deps n other →
      Meets deps name other ns → Meets deps name other (n :: ns)
  | only {n : String} {ns : List String} : Reaches deps n name → ¬Reaches deps n other →
      Meets deps name other (n :: ns)
  | inside {n : String} {ns : List String} {ds : NameSet} : Reaches deps n name →
      Reaches deps n other → deps.find? n = some ds → Meets deps name other ds.toList →
      Meets deps name other (n :: ns)

variable {name other n : String} {ns order mid new : List String}

theorem Sorted.mem_of_reaches (h : Sorted deps order) (hm : n ∈ order)
    (hr : Reaches deps n name) : name ∈ order := by
  rcases reflTransGen_iff_eq_or_transGen.1 hr with rfl | hr
  · exact hm
  · obtain ⟨before, after, ho⟩ := List.append_of_mem hm
    have := h.before_of_needs ho hr
    rw [ho]
    exact List.mem_append_left _ this

theorem visit_mem {path : List String} (h : Sorted deps order)
    (hv : visit deps path order n = .ok new) :
    Sorted deps new ∧ order <+: new ∧ ∀ x, x ∈ new ↔ x ∈ order ∨ Reaches deps n x := by
  have hc : ∀ a b, Reaches deps n a → Needs deps a b → Reaches deps n b :=
    fun _ _ ha hab => ha.tail hab
  obtain ⟨hs, he, hin⟩ := visit_adds hc path order n new h .refl hv
  refine ⟨hs, he.start, fun x => ⟨fun hx => ?_, ?_⟩⟩
  · exact (he.fresh x hx).imp id And.right
  · rintro (hx | hx)
    · exact he.start.subset hx
    · exact hs.mem_of_reaches hin hx

/-- Which of two names comes first is settled as soon as one of them is there. -/
theorem idxOf_settled (hp : mid <+: new) (hm : name ∈ mid ∨ other ∈ mid) :
    new.idxOf name < new.idxOf other ↔ mid.idxOf name < mid.idxOf other := by
  obtain ⟨rest, rfl⟩ := hp
  rw [List.idxOf_append, List.idxOf_append]
  by_cases hn : name ∈ mid
  · have := List.idxOf_lt_length_iff.2 hn
    by_cases ho : other ∈ mid
    · rw [if_pos hn, if_pos ho]
    · have hl := List.idxOf_eq_length ho
      rw [if_pos hn, if_neg ho]
      omega
  · have ho := hm.resolve_left hn
    have := List.idxOf_lt_length_iff.2 ho
    have hl := List.idxOf_eq_length hn
    rw [if_neg hn, if_pos ho]
    omega

theorem idxOf_absent (h : name ∉ order) : ¬order.idxOf name < order.idxOf other := by
  have := List.idxOf_eq_length h
  have := List.idxOf_le_length (a := other) (l := order)
  omega

theorem idxOf_first (h : name ∈ order) (ho : other ∉ order) :
    order.idxOf name < order.idxOf other := by
  have := List.idxOf_lt_length_iff.2 h
  have := List.idxOf_eq_length ho
  omega

theorem meets_nil : ¬Meets deps name other [] :=
  fun h => nomatch h

theorem meets_cons : Meets deps name other (n :: ns) ↔
    (¬Reaches deps n name ∧ ¬Reaches deps n other ∧ Meets deps name other ns) ∨
      (Reaches deps n name ∧ ¬Reaches deps n other) ∨
      (Reaches deps n name ∧ Reaches deps n other ∧
        ∃ ds, deps.find? n = some ds ∧ Meets deps name other ds.toList) := by
  constructor
  · intro h
    cases h with
    | next h1 h2 h3 => exact .inl ⟨h1, h2, h3⟩
    | only h1 h2 => exact .inr (.inl ⟨h1, h2⟩)
    | inside h1 h2 h3 h4 => exact .inr (.inr ⟨h1, h2, _, h3, h4⟩)
  · rintro (⟨h1, h2, h3⟩ | ⟨h1, h2⟩ | ⟨h1, h2, ds, h3, h4⟩)
    · exact .next h1 h2 h3
    · exact .only h1 h2
    · exact .inside h1 h2 h3 h4

/-- The step settles, from an order without both names, which of them comes first. -/
def Settles (deps : Dict String NameSet) (name other : String) (path : List String) : Prop :=
  ∀ order n new, Sorted deps order → name ∉ order → other ∉ order →
    visit deps path order n = .ok new →
    (new.idxOf name < new.idxOf other ↔ Meets deps name other [n])

theorem Settles.all {path : List String} (hs : Settles deps name other path)
    (h : Sorted deps order) (hn : name ∉ order) (ho : other ∉ order)
    (hr : ns.foldlM (visit deps path) order = .ok new) :
    new.idxOf name < new.idxOf other ↔ Meets deps name other ns := by
  induction ns generalizing order with
  | nil =>
    cases hr
    exact ⟨fun hi => absurd hi (idxOf_absent hn), fun hm => absurd hm meets_nil⟩
  | cons n ns ih =>
    rw [List.foldlM_cons] at hr
    obtain ⟨mid, hv, hr⟩ := bind_ok.1 hr
    obtain ⟨hmid, hstart, hmem⟩ := visit_mem h hv
    have hall : Adds deps path (fun _ => True) (visit deps path) :=
      visit_adds (fun _ _ _ _ => trivial) path
    have hend : mid <+: new := (hall.all hmid (fun _ _ => trivial) hr).2.1.start
    have hname : name ∈ mid ↔ Reaches deps n name := by simp [hmem, hn]
    have hother : other ∈ mid ↔ Reaches deps n other := by simp [hmem, ho]
    rw [meets_cons]
    by_cases h1 : Reaches deps n name
    · have hsettled : new.idxOf name < new.idxOf other ↔ mid.idxOf name < mid.idxOf other :=
        idxOf_settled hend (.inl (hname.2 h1))
      rw [hsettled, hs order n mid h hn ho hv, meets_cons]
      simp [h1]
    · by_cases h2 : Reaches deps n other
      · have hsettled : new.idxOf name < new.idxOf other ↔ mid.idxOf name < mid.idxOf other :=
          idxOf_settled hend (.inr (hother.2 h2))
        rw [hsettled, hs order n mid h hn ho hv, meets_cons]
        simp [h1, h2]
      · rw [ih hmid (mt hname.1 h1) (mt hother.1 h2) hr]
        simp [h1, h2]

/-- Unless the name reaches both, what is reached settles it. -/
theorem settles_of_both (hn : name ∉ order) (ho : other ∉ order)
    (hmem : ∀ x, x ∈ new ↔ x ∈ order ∨ Reaches deps n x)
    (hboth : Reaches deps n name → Reaches deps n other →
      (new.idxOf name < new.idxOf other ↔
        ∃ ds, deps.find? n = some ds ∧ Meets deps name other ds.toList)) :
    new.idxOf name < new.idxOf other ↔ Meets deps name other [n] := by
  have hname : name ∈ new ↔ Reaches deps n name := by simp [hmem, hn]
  have hother : other ∈ new ↔ Reaches deps n other := by simp [hmem, ho]
  rw [meets_cons]
  by_cases h1 : Reaches deps n name
  · by_cases h2 : Reaches deps n other
    · rw [hboth h1 h2]
      simp [h1, h2]
    · have := idxOf_first (hname.2 h1) (mt hother.1 h2)
      simp [h1, h2, this]
  · have habsent : ¬new.idxOf name < new.idxOf other := idxOf_absent (mt hname.1 h1)
    simp [h1, meets_nil, habsent]

theorem visit_settles (hne : name ≠ other) (path : List String) :
    Settles deps name other path := by
  intro order n
  induction path, order, n using visit.induct deps with
  | case1 path order n hp =>
    intro new h hn ho hv
    rw [visit, dif_pos hp] at hv
    cases hv
  | case2 path order n hp hin =>
    intro new h hn ho hv
    have hin : n ∈ order := by simpa using hin
    refine settles_of_both hn ho (visit_mem h hv).2.2 fun h1 => ?_
    exact absurd (h.mem_of_reaches hin h1) hn
  | case3 path order n hp hin hd =>
    intro new h hn ho hv
    rw [visit_unlisted hp hin hd] at hv
    cases hv
  | case4 path order n hp hin ds hd e hf ih =>
    intro new h hn ho hv
    rw [visit_new hp hin hd, hf] at hv
    cases hv
  | case5 path order n hp hin ds hd mid hf ih =>
    intro new h hn ho hv
    have hmem := (visit_mem h hv).2.2
    rw [visit_new hp hin hd, hf] at hv
    cases hv
    refine settles_of_both hn ho hmem fun h1 h2 => ?_
    have hs : Settles deps name other (n :: path) := fun order other new => ih order other new
    -- the name itself comes last, so what its dependencies reach settles it
    have hsome : name ∈ mid ∨ other ∈ mid := by
      have h1 := (hmem name).2 (.inr h1)
      have h2 := (hmem other).2 (.inr h2)
      simp only [List.mem_append, List.mem_singleton] at h1 h2
      rcases h1 with h1 | rfl
      · exact .inl h1
      · exact .inr (h2.resolve_right fun he => hne he.symm)
    rw [idxOf_settled (List.prefix_append mid [n]) hsome, hs.all h hn ho hf, hd]
    simp

/-- The exact condition for one name to come before another one. -/
theorem ofDependencies_meets (hne : name ≠ other) (h : ofDependencies deps = .ok order) :
    order.idxOf name < order.idxOf other ↔ Meets deps name other deps.keys :=
  (visit_settles hne []).all .nil (by simp) (by simp) h

end Meeting

theorem mem_keys_of_cyclic {name : String} (h : TransGen (Needs deps) name name) :
    name ∈ deps.keys := by
  obtain ⟨_, ⟨ds, hd, _⟩, _⟩ := TransGen.head'_iff.1 h
  exact Dict.mem_keys_of_find? hd

/-- Names whose dependencies are listed are put in order exactly if none needs itself, directly or
through others: every name comes once, behind all that it needs. Where one does, the fault names a
cycle. -/
theorem ofDependencies_cyclic_iff
    (hc : ∀ name other, Needs deps name other → other ∈ deps.keys) :
    ((∃ e, ofDependencies deps = .error e ∧ e.report.code = .circularDependency) ↔
      ∃ name, TransGen (Needs deps) name name) ∧
    (∀ e, ofDependencies deps = .error e → Blames deps e) ∧
    ((¬∃ name, TransGen (Needs deps) name name) →
      ∃ order, ofDependencies deps = .ok order ∧ order.Perm deps.keys ∧
        ∀ name other, Needs deps name other → order.idxOf other < order.idxOf name) := by
  refine ⟨⟨?_, ?_⟩, fun e h => ofDependencies_blames hc h, fun hacyclic => ?_⟩
  · rintro ⟨e, h, -⟩
    exact (ofDependencies_blames hc h).cyclic
  · rintro ⟨name, hn⟩
    cases ho : ofDependencies deps with
    | error e => exact ⟨e, rfl, (ofDependencies_blames hc ho).code⟩
    | ok order =>
      obtain ⟨hs, hm⟩ := ofDependencies_sorted ho hc
      exact absurd hn (hs.acyclic ((hm name).2 (mem_keys_of_cyclic hn)))
  · cases ho : ofDependencies deps with
    | error e => exact absurd (ofDependencies_blames hc ho).cyclic hacyclic
    | ok order =>
      obtain ⟨hs, hm⟩ := ofDependencies_sorted ho hc
      refine ⟨order, rfl, ?_, fun name other hneeds => ?_⟩
      · exact (List.perm_ext_iff_of_nodup hs.nodup Dict.nodup_keys).2 hm
      · have hname : name ∈ order := by
          obtain ⟨ds, hd, _⟩ := hneeds
          exact (hm name).2 (Dict.mem_keys_of_find? hd)
        obtain ⟨before, after, hsplit⟩ := List.append_of_mem hname
        exact (hs.idxOf_lt_iff hsplit).2 (hs.closed before name after hsplit other hneeds)

/-- A diamond: `a` needs `b` and `c`, and both need `d`, which needs the given names. -/
def diamond (last : List String) : Dict String NameSet :=
  Dict.ofList [("a", OrderedSet.ofList ["b", "c"]), ("b", OrderedSet.ofList ["d"]),
    ("c", OrderedSet.ofList ["d"]), ("d", OrderedSet.ofList last)]

theorem diamond_listed {last : List String} (hl : last = [] ∨ last = ["b"]) (name other : String)
    (h : Needs (diamond last) name other) : other ∈ (diamond last).keys := by
  obtain ⟨ds, hd, ho⟩ := h
  have hall : ((diamond last).entries.all fun e =>
      e.2.toList.all (diamond last).keys.contains) = true := by
    rcases hl with rfl | rfl <;> decide +kernel
  have := List.all_eq_true.1 (List.all_eq_true.1 hall _ (Dict.find?_eq_some_iff.1 hd)) other ho
  simpa using this

/-- The diamond is put in order, from its end; with a way back from `d` to `b` it is refused. -/
theorem ofDependencies_cyclic_iff_diamond :
    (∃ order, ofDependencies (diamond []) = .ok order ∧ order.Perm ["a", "b", "c", "d"]) ∧
    ∃ e, ofDependencies (diamond ["b"]) = .error e ∧ e.report.code = .circularDependency := by
  constructor
  · have h := ofDependencies_cyclic_iff (diamond_listed (.inl rfl))
    have hok : (ofDependencies (diamond [])).toBool = true := by decide +kernel
    obtain ⟨order, ho, hp, -⟩ := h.2.2 fun hcyclic => by
      obtain ⟨e, he, -⟩ := h.1.2 hcyclic
      rw [he] at hok
      cases hok
    exact ⟨order, ho, hp⟩
  · refine (ofDependencies_cyclic_iff (diamond_listed (.inr rfl))).1.2 ⟨"b", ?_⟩
    have hbd : Needs (diamond ["b"]) "b" "d" := ⟨OrderedSet.ofList ["d"], rfl, by decide⟩
    have hdb : Needs (diamond ["b"]) "d" "b" := ⟨OrderedSet.ofList ["b"], rfl, by decide⟩
    exact .tail (.single hbd) hdb

end Order

end Kinetics
